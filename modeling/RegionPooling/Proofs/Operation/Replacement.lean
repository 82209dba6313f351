import RegionPooling.Proofs.Binary.Conversion
import RegionPooling.Proofs.Operation.Session

/-!
# One parameter, or all of them

A parameter is replaced in two ways: by its name, or by reading all parameters from a document in
which this one is put in. The first way looks at the value itself, the second one decodes a
record. The parameters that are not touched take a detour in the second way: the scale is widened
to eight bytes and rounded back, which changes nothing.

Both ways accept the same values and refuse the same ones. They lead to the same parameters, too,
except for a scale that is given as a whole number. The decoder rounds it to four bytes, while the
replacement by name rounds it to eight bytes first. `Params.RoundsTwice` says that this makes a
difference, which takes a number of more than 53 bits.

Main results:

* `Params.ofValue_object_eq_ok_iff` — how a document of four members is read.
* `Params.toValue_eq` — the document of usable parameters.
* `Params.replace_eq_ok_iff_ofValue` — the two ways side by side.
* `Operation.setParam_agrees_with_replace` — for every operation, parameter and value.
-/

namespace RegionPooling

/-- A document with a member put in, in the place of the one that has its name. -/
def Json.withMember (document : Value) (name : String) (value : Value) : Value :=
  match document with
  | .object members => .object (Json.insertMember name value members)
  | other => other

namespace Params

/-! ## Reading four members -/

/-- The document of four parameters, in the order of their names. -/
def object (height width ratio scale : Value) : Value :=
  .object [("output_height", height), ("output_width", width), ("sampling_ratio", ratio),
    ("spatial_scale", scale)]

section Reading

variable {height width ratio scale : Value}

/-- The members as the record keeps them. -/
def objectFields (height width ratio scale : Value) : Fields :=
  [("output_height", .ofValue height), ("output_width", .ofValue width),
    ("sampling_ratio", .ofValue ratio), ("spatial_scale", .ofValue scale)]

/-- The members are checked one after the other. -/
theorem read_object :
    schema.read Document.tooLong (.ofValue (object height width ratio scale)) =
      ((Document.ofValue height).asUInt32.map fun _ => ()) >>= fun _ =>
      ((Document.ofValue width).asUInt32.map fun _ => ()) >>= fun _ =>
      ((Document.ofValue ratio).asInt32.map fun _ => ()) >>= fun _ =>
      ((Document.ofValue scale).asSingle.map fun _ => ()) >>= fun _ =>
        .ok (objectFields height width ratio scale) :=
  rfl

/-- Four members are read if each of them can be decoded, and they give the parameters. -/
theorem ofValue_object_eq_ok_iff {q : Params} :
    ofValue (object height width ratio scale) = .ok q ↔
      (Document.ofValue height).asUInt32 = .ok q.outputHeight ∧
      (Document.ofValue width).asUInt32 = .ok q.outputWidth ∧
      (Document.ofValue ratio).asInt32 = .ok q.samplingRatio ∧
      (Document.ofValue scale).asSingle = .ok q.spatialScale := by
  -- Each member is looked up by its name, after all of them were checked.
  have hheight : (objectFields height width ratio scale).get "output_height" Document.asUInt32 =
      (Document.ofValue height).asUInt32 := rfl
  have hwidth : (objectFields height width ratio scale).get "output_width" Document.asUInt32 =
      (Document.ofValue width).asUInt32 := rfl
  have hscale : (objectFields height width ratio scale).get "spatial_scale" Document.asSingle =
      (Document.ofValue scale).asSingle := rfl
  have hratio : (objectFields height width ratio scale).getD "sampling_ratio" Document.asInt32 0 =
      (Document.ofValue ratio).asInt32 := rfl
  rw [ofValue, ofDocument, read_object]
  constructor
  · intro h
    obtain ⟨fields, hread, h⟩ := bind_eq_ok.mp h
    obtain ⟨_, _, hread⟩ := bind_eq_ok.mp hread
    obtain ⟨_, _, hread⟩ := bind_eq_ok.mp hread
    obtain ⟨_, _, hread⟩ := bind_eq_ok.mp hread
    obtain ⟨_, _, hread⟩ := bind_eq_ok.mp hread
    obtain rfl := Except.ok.inj hread
    rw [hheight, hwidth, hscale, hratio] at h
    obtain ⟨_, hheight, h⟩ := bind_eq_ok.mp h
    obtain ⟨_, hwidth, h⟩ := bind_eq_ok.mp h
    obtain ⟨_, hscale, h⟩ := bind_eq_ok.mp h
    obtain ⟨_, hratio, h⟩ := bind_eq_ok.mp h
    obtain rfl := Except.ok.inj h
    exact ⟨hheight, hwidth, hratio, hscale⟩
  · rintro ⟨hheight', hwidth', hratio', hscale'⟩
    refine bind_eq_ok.mpr ⟨objectFields height width ratio scale, ?_, ?_⟩
    · rw [hheight', hwidth', hratio', hscale']
      rfl
    · refine bind_eq_ok.mpr ⟨_, hheight.trans hheight', ?_⟩
      refine bind_eq_ok.mpr ⟨_, hwidth.trans hwidth', ?_⟩
      refine bind_eq_ok.mpr ⟨_, hscale.trans hscale', ?_⟩
      exact bind_eq_ok.mpr ⟨_, hratio.trans hratio', rfl⟩

theorem object_withMember (v : Value) :
    (object height width ratio scale).withMember "output_height" v = object v width ratio scale ∧
    (object height width ratio scale).withMember "output_width" v = object height v ratio scale ∧
    (object height width ratio scale).withMember "spatial_scale" v = object height width ratio v ∧
    (object height width ratio scale).withMember "sampling_ratio" v =
      object height width v scale :=
  ⟨rfl, rfl, rfl, rfl⟩

end Reading

/-! ## The document of parameters -/

theorem asUInt32_ofValue_whole (n : UInt32) :
    (Document.ofValue (.number (.whole n.toNat))).asUInt32 = .ok n := by
  have hlt := n.toNat_lt
  have hwithin : (0 : Int) ≤ n.toNat ∧ (n.toNat : Int) ≤ 0xFFFFFFFF := by omega
  show (Document.asWhole 0 0xFFFFFFFF "u32" (.number (some (.whole n.toNat))) >>= _) = _
  rw [Document.asWhole, if_pos hwithin]
  show Except.ok (UInt32.ofNat (n.toNat : Int).toNat) = _
  rw [Int.toNat_natCast, UInt32.ofNat_toNat]

theorem asInt32_ofValue_whole (n : Int32) :
    (Document.ofValue (.number (.whole n.toInt))).asInt32 = .ok n := by
  have hlower := n.le_toInt
  have hupper := n.toInt_lt
  have hwithin : -0x80000000 ≤ n.toInt ∧ n.toInt ≤ 0x7FFFFFFF := by omega
  show (Document.asWhole (-0x80000000) 0x7FFFFFFF "i32" (.number (some (.whole n.toInt))) >>= _) = _
  rw [Document.asWhole, if_pos hwithin]
  exact congrArg Except.ok n.ofInt_toInt

/-- The document of parameters with a finite scale, which is widened. -/
theorem toValue_eq {p : Params} (h : p.spatialScale.isFinite = true) :
    p.toValue = object (.number (.whole p.outputHeight.toNat))
      (.number (.whole p.outputWidth.toNat)) (.number (.whole p.samplingRatio.toInt))
      (.number (.real p.spatialScale.convert)) := by
  have hscale : Json.ofLiteral (.single p.spatialScale) =
      .number (.real p.spatialScale.convert) := if_pos h
  rw [← hscale]
  rfl

/-! ## Single values -/

/-- A whole number within bounds is one for both ways. -/
theorem asWhole_ofValue_eq_ok_iff {lower upper n : Int} {expected : String} {v : Value} :
    (Document.ofValue v).asWhole lower upper expected = .ok n ↔
      wholeWithin? lower upper v = some n := by
  cases v with
  | number number =>
    cases number with
    | whole k =>
      show (if lower ≤ k ∧ k ≤ upper then _ else _) = _ ↔
        (if lower ≤ k ∧ k ≤ upper then _ else _) = _
      split <;> simp
    | real x => exact ⟨fun h => (by cases h), fun h => (by cases h)⟩
  | _ => exact ⟨fun h => (by cases h), fun h => (by cases h)⟩

/-- Two ways to make something of a whole number within bounds. -/
theorem whole_eq_ok_iff {α : Type} {lower upper : Int} {expected : String} {v : Value}
    {make : Int → α} {a : α} {x : Except Error α}
    (hsome : ∀ n, wholeWithin? lower upper v = some n → x = .ok (make n))
    (hnone : wholeWithin? lower upper v = none → ∃ error, x = .error error) :
    x = .ok a ↔
      (do return make (← (Document.ofValue v).asWhole lower upper expected)) = .ok a := by
  rw [bind_eq_ok]
  simp only [asWhole_ofValue_eq_ok_iff]
  cases hwhole : wholeWithin? lower upper v with
  | none =>
    obtain ⟨error, rfl⟩ := hnone hwhole
    simp
  | some n =>
    rw [hsome n hwhole]
    constructor
    · intro h
      exact ⟨n, rfl, congrArg Except.ok (Except.ok.inj h)⟩
    · rintro ⟨_, hn, h⟩
      obtain rfl := Option.some.inj hn
      exact congrArg Except.ok (Except.ok.inj h)

theorem gridSize_eq_ok_iff {name : String} {v : Value} {n : UInt32} :
    gridSize name v = .ok n ↔ (Document.ofValue v).asUInt32 = .ok n := by
  refine whole_eq_ok_iff (fun k hk => ?_) fun hnone => ⟨wrongType name "unsigned integer" v, ?_⟩
  · rw [gridSize, hk]
  · rw [gridSize, hnone]

theorem ratio_eq_ok_iff {name : String} {v : Value} {n : Int32} :
    ratio name v = .ok n ↔ (Document.ofValue v).asInt32 = .ok n := by
  refine whole_eq_ok_iff (fun k hk => ?_) fun hnone => ⟨wrongType name "integer" v, ?_⟩
  · rw [ratio, hk]
  · rw [ratio, hnone]

/-- The scale is given as a whole number, and the roundings to eight bytes and then to four do not
lead where the rounding to four bytes alone does. -/
def RoundsTwice (name : String) (v : Value) : Prop :=
  name = "spatial_scale" ∧ ∃ n, v = .number (.whole n) ∧
    ((Binary.ofInt n : Double).convert : Single) ≠ Binary.ofInt n

/-- Whole numbers of up to 53 bits are rounded once either way. -/
theorem not_roundsTwice {name : String} {n : Int} (hn : |n| ≤ 2 ^ 53) :
    ¬ RoundsTwice name (.number (.whole n)) := by
  rintro ⟨-, _, hv, hne⟩
  cases hv
  exact hne (Single.convert_ofInt hn)

/-- A scale is decoded to the same number, or it is a whole number that is rounded once more. -/
theorem scale_cases (v : Value) :
    (¬ RoundsTwice "spatial_scale" v ∧
      ∀ x, scale "spatial_scale" v = .ok x ↔ (Document.ofValue v).asSingle = .ok x) ∨
    ∃ n, v = .number (.whole n) ∧ RoundsTwice "spatial_scale" v ∧
      scale "spatial_scale" v = .ok (Binary.ofInt n : Double).convert ∧
      (Document.ofValue v).asSingle = .ok (Binary.ofInt n) := by
  cases v with
  | number number =>
    cases number with
    | whole n =>
      by_cases hsame : ((Binary.ofInt n : Double).convert : Single) = Binary.ofInt n
      · refine .inl ⟨?_, ?_⟩
        · rintro ⟨-, _, hv, hne⟩
          cases hv
          exact hne hsame
        · intro x
          show Except.ok _ = _ ↔ Except.ok _ = _
          rw [hsame]
          simp
      · exact .inr ⟨n, rfl, ⟨rfl, n, rfl, hsame⟩, rfl, rfl⟩
    | real x =>
      refine .inl ⟨?_, fun y => ?_⟩
      · rintro ⟨-, _, hv, -⟩
        cases hv
      · show Except.ok _ = _ ↔ Except.ok _ = _
        simp
  | _ =>
    refine .inl ⟨?_, fun x => ⟨fun h => (by cases h), fun h => (by cases h)⟩⟩
    rintro ⟨-, _, hv, -⟩
    cases hv

/-! ## The two ways -/

section Replacement

variable {p q : Params} {v : Value}

/-- The document of parameters is read back as the parameters; one member is as good as another
with the same reading. -/
theorem ofValue_withMember_eq_ok_iff (h : p.spatialScale.isFinite = true) :
    (ofValue (p.toValue.withMember "output_height" v) = .ok q ↔
      ∃ n, (Document.ofValue v).asUInt32 = .ok n ∧ { p with outputHeight := n } = q) ∧
    (ofValue (p.toValue.withMember "output_width" v) = .ok q ↔
      ∃ n, (Document.ofValue v).asUInt32 = .ok n ∧ { p with outputWidth := n } = q) ∧
    (ofValue (p.toValue.withMember "spatial_scale" v) = .ok q ↔
      ∃ x, (Document.ofValue v).asSingle = .ok x ∧ { p with spatialScale := x } = q) ∧
    (ofValue (p.toValue.withMember "sampling_ratio" v) = .ok q ↔
      ∃ n, (Document.ofValue v).asInt32 = .ok n ∧ { p with samplingRatio := n } = q) := by
  have hscale : (Document.ofValue (.number (.real p.spatialScale.convert))).asSingle =
      .ok p.spatialScale := congrArg Except.ok (Single.convert_convert h)
  have hheight := asUInt32_ofValue_whole p.outputHeight
  have hwidth := asUInt32_ofValue_whole p.outputWidth
  have hratio := asInt32_ofValue_whole p.samplingRatio
  rw [toValue_eq h]
  refine ⟨?_, ?_, ?_, ?_⟩
  · rw [(object_withMember v).1, ofValue_object_eq_ok_iff, hwidth, hratio, hscale]
    constructor
    · rintro ⟨hv, hw, hr, hs⟩
      refine ⟨_, hv, ?_⟩
      rw [Except.ok.inj hw, Except.ok.inj hr, Except.ok.inj hs]
    · rintro ⟨n, hv, rfl⟩
      exact ⟨hv, rfl, rfl, rfl⟩
  · rw [(object_withMember v).2.1, ofValue_object_eq_ok_iff, hheight, hratio, hscale]
    constructor
    · rintro ⟨hh, hv, hr, hs⟩
      refine ⟨_, hv, ?_⟩
      rw [Except.ok.inj hh, Except.ok.inj hr, Except.ok.inj hs]
    · rintro ⟨n, hv, rfl⟩
      exact ⟨rfl, hv, rfl, rfl⟩
  · rw [(object_withMember v).2.2.1, ofValue_object_eq_ok_iff, hheight, hwidth, hratio]
    constructor
    · rintro ⟨hh, hw, hr, hv⟩
      refine ⟨_, hv, ?_⟩
      rw [Except.ok.inj hh, Except.ok.inj hw, Except.ok.inj hr]
    · rintro ⟨x, hv, rfl⟩
      exact ⟨rfl, rfl, rfl, hv⟩
  · rw [(object_withMember v).2.2.2, ofValue_object_eq_ok_iff, hheight, hwidth, hscale]
    constructor
    · rintro ⟨hh, hw, hv, hs⟩
      refine ⟨_, hv, ?_⟩
      rw [Except.ok.inj hh, Except.ok.inj hw, Except.ok.inj hs]
    · rintro ⟨n, hv, rfl⟩
      exact ⟨rfl, rfl, hv, rfl⟩

/-- The names of the parameters. -/
theorem mem_names {name : String} (h : name ∈ schema.fields.map Field.name) :
    name = "output_height" ∨ name = "output_width" ∨ name = "spatial_scale" ∨
      name = "sampling_ratio" := by
  simpa [schema, Field.required, Field.optionally] using h

/-- Where nothing is rounded twice, both ways offer the same parameters. -/
theorem replace_eq_ok_iff_ofValue (h : p.spatialScale.isFinite = true) {name : String}
    (hname : name ∈ schema.fields.map Field.name) (hv : ¬ RoundsTwice name v) :
    p.replace name v = .ok q ↔ ofValue (p.toValue.withMember name v) = .ok q := by
  obtain ⟨hheight, hwidth, hscale, hratio⟩ := ofValue_withMember_eq_ok_iff (q := q) (v := v) h
  rcases mem_names hname with rfl | rfl | rfl | rfl
  · rw [hheight]
    simp only [replace, map_eq_ok, gridSize_eq_ok_iff]
  · rw [hwidth]
    simp only [replace, map_eq_ok, gridSize_eq_ok_iff]
  · rw [hscale]
    rcases scale_cases v with ⟨-, hsame⟩ | ⟨n, -, htwice, -⟩
    · simp only [replace, map_eq_ok, hsame]
    · exact absurd htwice hv
  · rw [hratio]
    simp only [replace, map_eq_ok, ratio_eq_ok_iff]

/-- Where a whole number is rounded twice, both ways offer a scale, and not the same one. -/
theorem exists_of_roundsTwice (h : p.spatialScale.isFinite = true) {name : String}
    (hv : RoundsTwice name v) : ∃ n : Int, v = .number (.whole n) ∧
      p.replace name v = .ok { p with spatialScale := (Binary.ofInt n : Double).convert } ∧
      ofValue (p.toValue.withMember name v) = .ok { p with spatialScale := Binary.ofInt n } ∧
      ((Binary.ofInt n : Double).convert : Single) ≠ Binary.ofInt n := by
  obtain ⟨rfl, n, rfl, hne⟩ := hv
  refine ⟨n, rfl, rfl, ?_, hne⟩
  exact (ofValue_withMember_eq_ok_iff h).2.2.1.mpr ⟨_, rfl, rfl⟩

/-- A scale that is rounded twice is as usable as one that is rounded once. -/
theorem usable_convert_ofInt_iff {n : Int} (hn : |n| ≤ 2 ^ 64) :
    { p with spatialScale := (Binary.ofInt n : Double).convert }.Usable ↔
      { p with spatialScale := Binary.ofInt n }.Usable := by
  obtain ⟨htwice, honce, hpos⟩ := Single.pos_convert_ofInt_iff hn
  constructor
  · intro husable
    exact ⟨husable.outputHeight_ne_zero, husable.outputWidth_ne_zero, honce,
      hpos.mp husable.scale_pos⟩
  · intro husable
    exact ⟨husable.outputHeight_ne_zero, husable.outputWidth_ne_zero, htwice,
      hpos.mpr husable.scale_pos⟩

end Replacement

end Params

namespace Operation

variable {op new : Operation} {name : String} {v : Value}

/-- Operations are made from the parameters that they hold. -/
theorem bind_ofParams_eq_ok_iff {x : Except Error Params} :
    (x >>= ofParams) = .ok new ↔ x = .ok new.params := by
  rw [bind_eq_ok]
  constructor
  · rintro ⟨p, hp, hnew⟩
    rw [hp, params_of_ofParams hnew]
  · intro hx
    exact ⟨new.params, hx, ofParams_eq_ok new.valid⟩

theorem setParam_eq_ok_iff : op.setParam name v = .ok new ↔
    op.params.replace name v = .ok new.params :=
  bind_ofParams_eq_ok_iff

theorem ofValue_eq_ok_iff : ofValue v = .ok new ↔ Params.ofValue v = .ok new.params := by
  rw [ofValue, bind_ofParams_eq_ok_iff]
  cases Params.ofValue v with
  | error failure => exact ⟨fun h => (by cases h), fun h => (by cases h)⟩
  | ok p => exact ⟨fun h => (by cases h; rfl), fun h => (by cases h; rfl)⟩

/-- There is an operation with these parameters if they are usable. -/
theorem exists_params_eq_iff {p : Params} : (∃ op : Operation, p = op.params) ↔ p.Usable := by
  constructor
  · rintro ⟨op, rfl⟩
    exact op.usable
  · intro h
    exact ⟨⟨p, Params.validate_eq_ok_iff.mpr h⟩, rfl⟩

/-- The two ways go through for the same values. -/
theorem exists_setParam_iff_ofValue (hname : name ∈ Params.schema.fields.map Field.name)
    (hv : ∀ n, v = .number (.whole n) → -2 ^ 63 ≤ n ∧ n < 2 ^ 64) :
    (∃ new, op.setParam name v = .ok new) ↔
      ∃ new, ofValue (op.params.toValue.withMember name v) = .ok new := by
  simp only [setParam_eq_ok_iff, ofValue_eq_ok_iff]
  have hfinite := op.usable.scale_isFinite
  by_cases htwice : Params.RoundsTwice name v
  · obtain ⟨n, rfl, hreplace, hread, -⟩ := Params.exists_of_roundsTwice hfinite htwice
    obtain ⟨hlower, hupper⟩ := hv n rfl
    rw [hreplace, hread]
    simp only [Except.ok.injEq, exists_params_eq_iff]
    exact Params.usable_convert_ofInt_iff (abs_le.mpr ⟨by omega, by omega⟩)
  · simp only [Params.replace_eq_ok_iff_ofValue hfinite hname htwice]

/-- Where the two ways go through, they make the same parameters unless a scale is rounded twice. -/
theorem params_eq_iff_not_roundsTwice {new' : Operation}
    (hname : name ∈ Params.schema.fields.map Field.name) (hset : op.setParam name v = .ok new)
    (hread : ofValue (op.params.toValue.withMember name v) = .ok new') :
    new.params = new'.params ↔ ¬ Params.RoundsTwice name v := by
  rw [setParam_eq_ok_iff] at hset
  rw [ofValue_eq_ok_iff] at hread
  have hfinite := op.usable.scale_isFinite
  by_cases htwice : Params.RoundsTwice name v
  · obtain ⟨n, rfl, hreplace, hread', hne⟩ := Params.exists_of_roundsTwice hfinite htwice
    refine iff_of_false (fun hsame => hne ?_) (not_not.mpr htwice)
    have hnew := Except.ok.inj (hreplace.symm.trans hset)
    have hnew' := Except.ok.inj (hread'.symm.trans hread)
    rw [← hnew, ← hnew'] at hsame
    exact congrArg Params.spatialScale hsame
  · rw [Params.replace_eq_ok_iff_ofValue hfinite hname htwice, hread] at hset
    exact iff_of_true (Except.ok.inj hset).symm htwice

theorem sessionStep_setParam (h : op.setParam name v = .ok new) :
    sessionStep (some op) (.setParam name v) = (.ok .done, some new) :=
  congrArg (Answer.renew (some op)) h

theorem sessionStep_replace (h : ofValue v = .ok new) :
    sessionStep (some op) (.replace v) = (.ok .done, some new) :=
  congrArg (Answer.renew (some op)) h

/-- The outcomes of a step that renews the operation. -/
theorem renew_cases (old : Option Operation) (result : Except Error Operation) :
    (∃ new, result = .ok new ∧ Answer.renew old result = (.ok .done, some new)) ∨
      (¬ ∃ new, result = .ok new) ∧ ∃ refusal, Answer.renew old result = (.error refusal, old) := by
  cases result with
  | ok new => exact .inl ⟨new, rfl, rfl⟩
  | error error => exact .inr ⟨fun ⟨_, h⟩ => (by cases h), _, rfl⟩

/--
A parameter that is replaced by name, and one that is put into the document of all parameters. For
every value that a document can hold the two steps go through together or fail together. Where
they fail, both leave the operation alone. Where they go through, the new parameters are the same
unless a scale is rounded twice, and whole numbers of up to 53 bits are not.
-/
theorem setParam_agrees_with_replace (op : Operation) {name : String}
    (hname : name ∈ Params.schema.fields.map Field.name) (v : Value)
    (hv : ∀ n, v = .number (.whole n) → -2 ^ 63 ≤ n ∧ n < 2 ^ 64) :
    ((∃ new new', sessionStep (some op) (.setParam name v) = (.ok .done, some new) ∧
        sessionStep (some op) (.replace (op.params.toValue.withMember name v)) =
          (.ok .done, some new') ∧
        (new.params = new'.params ↔ ¬ Params.RoundsTwice name v)) ∨
      ∃ refusal refusal', sessionStep (some op) (.setParam name v) = (.error refusal, some op) ∧
        sessionStep (some op) (.replace (op.params.toValue.withMember name v)) =
          (.error refusal', some op)) ∧
    ∀ n : Int, |n| ≤ 2 ^ 53 → ¬ Params.RoundsTwice name (.number (.whole n)) := by
  refine ⟨?_, fun n hn => Params.not_roundsTwice hn⟩
  have htogether : (∃ new, op.setParam name v = .ok new) ↔
      ∃ new, ofValue (op.params.toValue.withMember name v) = .ok new :=
    exists_setParam_iff_ofValue hname hv
  rcases renew_cases (some op) (op.setParam name v) with
    ⟨new, hset, hstep⟩ | ⟨hset, refusal, hstep⟩
  · obtain ⟨new', hread⟩ := htogether.mp ⟨new, hset⟩
    exact .inl ⟨new, new', hstep, sessionStep_replace hread,
      params_eq_iff_not_roundsTwice hname hset hread⟩
  · rcases renew_cases (some op) (ofValue (op.params.toValue.withMember name v)) with
      ⟨new', hread, -⟩ | ⟨-, refusal', hstep'⟩
    · exact absurd (htogether.mpr ⟨new', hread⟩) hset
    · exact .inr ⟨refusal, refusal', hstep, hstep'⟩

/-- Pools each region into one number. -/
def onePixel : Operation where
  params := .ofGrid 1 1
  valid := Params.validate_eq_ok_iff.mpr (Params.usable_ofGrid (by decide) (by decide))

-- Names of parameters are compared character by character.
set_option maxRecDepth 4000 in
/-- Three rows can be asked for in both ways. -/
theorem onePixel_agrees_on_rows :
    "output_height" ∈ Params.schema.fields.map Field.name ∧
      (-2 ^ 63 ≤ (3 : Int) ∧ (3 : Int) < 2 ^ 64) ∧
      ∃ new new', sessionStep (some onePixel) (.setParam "output_height" (.number (.whole 3))) =
          (.ok .done, some new) ∧
        sessionStep (some onePixel)
          (.replace (onePixel.params.toValue.withMember "output_height" (.number (.whole 3)))) =
            (.ok .done, some new') ∧ new.params = new'.params := by
  have hname : "output_height" ∈ Params.schema.fields.map Field.name := List.mem_cons_self
  have hwithin : -2 ^ 63 ≤ (3 : Int) ∧ (3 : Int) < 2 ^ 64 := by decide
  refine ⟨hname, hwithin, ?_⟩
  obtain ⟨hagree, hsmall⟩ := setParam_agrees_with_replace onePixel hname (.number (.whole 3))
    (fun n hn => by cases hn; exact hwithin)
  rcases hagree with ⟨new, new', hset, hread, hsame⟩ | ⟨refusal, -, hset, -⟩
  · exact ⟨new, new', hset, hread, hsame.mpr (hsmall 3 (by decide))⟩
  · cases hset

/-- A whole number that is half way between two four-byte numbers, but for one. -/
def aboveTie : Int := 2 ^ 63 + 2 ^ 39 + 1

/-- The one is lost in eight bytes, and the tie then goes to the other neighbour. -/
theorem onePixel_rounds_twice : (-2 ^ 63 ≤ aboveTie ∧ aboveTie < 2 ^ 64) ∧
    ∃ new new',
      sessionStep (some onePixel) (.setParam "spatial_scale" (.number (.whole aboveTie))) =
        (.ok .done, some new) ∧
      sessionStep (some onePixel) (.replace
        (onePixel.params.toValue.withMember "spatial_scale" (.number (.whole aboveTie)))) =
          (.ok .done, some new') ∧ new.params ≠ new'.params := by
  have hwithin : -2 ^ 63 ≤ aboveTie ∧ aboveTie < 2 ^ 64 := by decide
  have hname : "spatial_scale" ∈ Params.schema.fields.map Field.name := by
    simp [Params.schema, Field.required]
  have htwice : Params.RoundsTwice "spatial_scale" (.number (.whole aboveTie)) :=
    ⟨rfl, aboveTie, rfl, by decide +kernel⟩
  obtain ⟨new, hnew⟩ := exists_params_eq_iff.mpr (show Params.Usable
    { onePixel.params with spatialScale := (Binary.ofInt aboveTie : Double).convert } by
      decide +kernel)
  have hset : onePixel.setParam "spatial_scale" (.number (.whole aboveTie)) = .ok new := by
    rw [setParam_eq_ok_iff, ← hnew]
    rfl
  obtain ⟨new', hread⟩ := (exists_setParam_iff_ofValue hname fun n hn => by
    cases hn
    exact hwithin).mp ⟨new, hset⟩
  refine ⟨hwithin, new, new', sessionStep_setParam hset, sessionStep_replace hread, ?_⟩
  intro hsame
  exact (params_eq_iff_not_roundsTwice hname hset hread).mp hsame htwice

end Operation

end RegionPooling
