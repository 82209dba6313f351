import RegionPooling.Fixture
import RegionPooling.Proofs.Tensor.Making
import RegionPooling.Proofs.Text.Lines

/-!
# Messages are lines

Whatever goes wrong between the text of a fixture and the report on it, the message says it on one
line, with two exceptions: what the system says about a file and the name of the fixture are taken
into a message as they are. Other texts of a document only appear in quotes, numbers are numbers,
and all else that a message is made of are the library's own words. What the reader of documents
remarks on a failure is no part of the message.

`FailsInLine` says this of a single step, for errors and for failures of decoders alike, and
`StopsInLine` of a step that may also panic. What is put together from such steps is such a step, so
that the statements below follow the definitions one by one, from a single number up to the fixture.

Main results:

* `Fixture.failsInLine_ofDocument` — decoding, whatever the document.
* `Operation.stopsInLine_execute` — pooling, whatever the tensors.
* `Fixture.failsInLine_ofFile`, `Fixture.stopsInLine_verify` — loading and verifying.
-/

namespace RegionPooling

open Text (IsLine)

/-- If this fails, the failure is worded on one line. -/
abbrev FailsInLine {ε α : Type} (word : ε → String) (x : Except ε α) : Prop :=
  FailsOnly (fun error => IsLine (word error)) x

/-- If this gives back an error, that is worded on one line. -/
abbrev StopsInLine {α : Type} (x : Except Stop α) : Prop :=
  FailsOnly (Stop.Only fun error => IsLine error.message) x

/-! ## What a message takes over -/

theorem FileError.isLine_message {error : FileError}
    (h : ∀ text, error = .other text → IsLine text) : IsLine error.message := by
  cases error with
  | other text => exact h text rfl
  | _ => decide

/-- Nothing is said about a fault in a message. -/
theorem Failure.isLine_malformed (fault : Fault) : IsLine (malformed fault).message := by
  rw [message]
  decide

theorem Found.isLine_describe (found : Found) : IsLine found.describe := by
  unfold describe
  cases found with
  | bool b =>
    cases b
    all_goals decide
  | integer n =>
    have hdigits : IsLine (String.ofList (Layout.writeInt n)) :=
      Text.isLine_ofList.mpr (Layout.lineBreak_notMem_writeInt n)
    simp only [Text.isLine_append, hdigits, and_true]
    decide
  | floatingPoint x =>
    have hnumber := Layout.isLine_render Layout.onOneLine_jsonDouble x
    simp only [Text.isLine_append, hnumber, and_true]
    decide
  | string s =>
    simp only [Text.isLine_append, Text.isLine_quoted, and_true]
    decide
  | null | sequence | map => decide

/-- The texts that a message takes over as they are. -/
def Mismatch.quoted : Mismatch → List String
  | invalidType _ expected | invalidValue _ expected | invalidLength _ expected => [expected]
  | missingField name | duplicateField name => [name]
  | refused reason => [reason]

theorem Mismatch.isLine_message {mismatch : Mismatch} (h : ∀ text ∈ mismatch.quoted, IsLine text) :
    IsLine mismatch.message := by
  unfold message
  cases mismatch with
  | refused reason => exact h reason List.mem_cons_self
  | _ =>
    simp only [quoted, List.forall_mem_singleton] at h
    simp only [Text.isLine_append, Text.isLine_toString, Found.isLine_describe, h, and_true]
    decide

/-- The texts that a message takes over as they are. -/
def Error.quoted : Error → List String
  | wrongRank tensor _ _ | emptyDimension tensor _ | bufferSizeMismatch tensor _ _ => [tensor]
  | dimensionMismatch what _ _ => [what]
  | shapeOverflow shape => [shape]
  | invalidShape input reason => [input, reason]
  | invalidParameter name reason => [name, reason]
  | missingExpected fixture | fixtureMismatch fixture _ _ => [fixture]
  | file error => [error.message]
  | unreadable failure => [failure.message]
  | wrongRecordLength _ | axisOutOfRange _ _ | batchIndexOutOfRange _ _ _ => []

theorem Error.isLine_message {error : Error} (h : ∀ text ∈ error.quoted, IsLine text) :
    IsLine error.message := by
  have hplain (x : Single) := Layout.isLine_render Layout.onOneLine_plain x
  have hscientific (x : Single) := Layout.isLine_render Layout.onOneLine_scientific x
  unfold message
  cases error
  all_goals
    simp only [quoted, List.forall_mem_cons, List.not_mem_nil, false_implies, implies_true,
      and_true] at h
    simp only [Text.isLine_append, Text.isLine_toString, hplain, hscientific, h, and_true]
    decide

theorem Error.isLine_code (error : Error) : IsLine error.code := by
  unfold code
  cases error
  all_goals
    dsimp only
    decide

/-! ## Shapes and tensors -/

namespace Shape

theorem isLine_text (s : Shape) : IsLine s.text := by
  have hsizes : IsLine (", ".intercalate (s.sizes.map fun size => toString size.toNat)) := by
    refine Text.isLine_intercalate (by decide) fun text htext => ?_
    obtain ⟨size, -, rfl⟩ := List.mem_map.mp htext
    exact Text.isLine_toString size.toNat
  rw [text, Text.isLine_append, Text.isLine_append]
  exact ⟨⟨by decide, hsizes⟩, by decide⟩

/-- A shape with too many elements is shown as it is. -/
theorem isLine_overflow (s : Shape) : IsLine (Error.shapeOverflow s.text).message :=
  Error.isLine_message (List.forall_mem_singleton.mpr s.isLine_text)

theorem failsInLine_size (s : Shape) (axis : Nat) : FailsInLine Error.message (s.size axis) := by
  unfold size
  split
  · exact .ok _
  · exact .error (Error.isLine_message (by simp [Error.quoted]))

theorem failsInLine_count (s : Shape) : FailsInLine Error.message s.count := by
  unfold count
  split
  · exact .ok _
  · exact .error s.isLine_overflow

theorem failsInLine_expectRank (s : Shape) {tensor : String} (h : IsLine tensor) (rank : Nat) :
    FailsInLine Error.message (s.expectRank tensor rank) := by
  unfold expectRank
  split
  · exact .ok ()
  · exact .error (Error.isLine_message (by simp [Error.quoted, h]))

end Shape

namespace Tensor

theorem failsInLine_ofData (shape : Shape) (data : Array Single) :
    FailsInLine Error.message (ofData shape data) := by
  unfold ofData
  split
  · exact .error shape.isLine_overflow
  · split
    · exact .ok _
    · exact .error (Error.isLine_message (by simp only [Error.quoted]; decide))

theorem stopsInLine_zeros (shape : Shape) : StopsInLine (zeros shape) :=
  failsOnly_tabulate shape.isLine_overflow

end Tensor

/-! ## The checks of a run -/

namespace Extents

theorem failsInLine_checkRecordLength (length : UInt32) :
    FailsInLine Error.message (checkRecordLength length) := by
  unfold checkRecordLength
  split
  · exact .ok ()
  · exact .error (Error.isLine_message (by simp [Error.quoted]))

theorem failsInLine_checkNotEmpty (input : Shape) :
    FailsInLine Error.message (checkNotEmpty input) := by
  refine .forM fun axis _ => .bind (input.failsInLine_size axis) fun size _ => ?_
  split
  · exact .error (Error.isLine_message (by simp only [Error.quoted]; decide))
  · exact .ok ()

theorem failsInLine_checkDimension {what : String} (h : IsLine what) (expected : UInt32) (s : Shape)
    (axis : Nat) : FailsInLine Error.message (checkDimension what expected s axis) := by
  refine .bind (s.failsInLine_size axis) fun actual _ => ?_
  split
  · exact .error (Error.isLine_message (by simp [Error.quoted, h]))
  · exact .ok ()

theorem failsInLine_checkBuffer {tensor : String} (h : IsLine tensor) (v : View) :
    FailsInLine Error.message (checkBuffer tensor v) := by
  refine .bind v.shape.failsInLine_count fun expected _ => ?_
  split
  · exact .error (Error.isLine_message (by simp [Error.quoted, h]))
  · exact .ok ()

theorem failsInLine_resolve (input regions output : View) :
    FailsInLine Error.message (resolve input regions output) := by
  refine .bind (Shape.failsInLine_expectRank _ (by decide) _) fun _ _ => ?_
  refine .bind (Shape.failsInLine_expectRank _ (by decide) _) fun _ _ => ?_
  refine .bind (Shape.failsInLine_expectRank _ (by decide) _) fun _ _ => ?_
  refine .bind (Shape.failsInLine_size _ _) fun _ _ => ?_
  refine .bind (failsInLine_checkRecordLength _) fun _ _ => ?_
  refine .bind (failsInLine_checkNotEmpty _) fun _ _ => ?_
  refine .bind (Shape.failsInLine_size _ _) fun _ _ => ?_
  refine .bind (Shape.failsInLine_size _ _) fun _ _ => ?_
  refine .bind (failsInLine_checkDimension (by decide) _ _ _) fun _ _ => ?_
  refine .bind (failsInLine_checkDimension (by decide) _ _ _) fun _ _ => ?_
  refine .bind (failsInLine_checkBuffer (by decide) _) fun _ _ => ?_
  refine .bind (failsInLine_checkBuffer (by decide) _) fun _ _ => ?_
  refine .bind (failsInLine_checkBuffer (by decide) _) fun _ _ => ?_
  -- What is left only looks up sizes.
  refine .bind (Shape.failsInLine_size _ _) fun _ _ => ?_
  refine .bind (Shape.failsInLine_size _ _) fun _ _ => ?_
  refine .bind (Shape.failsInLine_size _ _) fun _ _ => ?_
  refine .bind (Shape.failsInLine_size _ _) fun _ _ => ?_
  refine .bind (Shape.failsInLine_size _ _) fun _ _ => ?_
  exact .ok _

theorem failsInLine_checkBatchIndices (e : Extents) (regions : Array Single) :
    FailsInLine Error.message (e.checkBatchIndices regions) := by
  unfold checkBatchIndices
  split
  · refine .forM fun region _ => ?_
    dsimp only
    split
    · exact .error (Error.isLine_message (by simp [Error.quoted]))
    · exact .ok ()
  · exact .ok ()

end Extents

/-! ## Operations -/

namespace Operation

theorem failsInLine_ofParams (p : Params) : FailsInLine Error.message (ofParams p) := by
  have hscale := Layout.isLine_render Layout.onOneLine_plain p.spatialScale
  have hreason : IsLine
      ("must be finite and positive, got " ++ Layout.plain.render p.spatialScale) :=
    Text.isLine_append.mpr ⟨by decide, hscale⟩
  have hvalidate : FailsInLine Error.message p.validate := by
    unfold Params.validate
    split
    · exact .error (Error.isLine_message (by decide))
    · split
      · exact .error (Error.isLine_message (by decide))
      · split
        · refine .error (Error.isLine_message ?_)
          rw [Error.quoted, List.forall_mem_cons, List.forall_mem_singleton]
          exact ⟨by decide, hreason⟩
        · exact .ok ()
  unfold ofParams
  split
  · rename_i error herror
    exact .error (hvalidate error herror)
  · exact .ok _

theorem failsInLine_prepare (op : Operation) (input regions : Shape) :
    FailsInLine Error.message (op.prepare input regions) := by
  refine .bind (Shape.failsInLine_expectRank _ (by decide) _) fun _ _ => ?_
  refine .bind (Shape.failsInLine_expectRank _ (by decide) _) fun _ _ => ?_
  refine .bind (Shape.failsInLine_size _ _) fun _ _ => ?_
  refine .bind (Extents.failsInLine_checkRecordLength _) fun _ _ => ?_
  refine .bind (Extents.failsInLine_checkNotEmpty _) fun _ _ => ?_
  refine .bind (Shape.failsInLine_size _ _) fun _ _ => ?_
  refine .bind (Shape.failsInLine_size _ _) fun _ _ => ?_
  refine .bind (Shape.failsInLine_count _) fun _ _ => ?_
  refine .bind (Shape.failsInLine_count _) fun _ _ => ?_
  exact .ok _

theorem failsInLine_align (job : Job) (output : Array Single) :
    FailsInLine Error.message (job.align output).1 := by
  have hcheck : FailsInLine Error.message (job.check output) := by
    refine .bind (Extents.failsInLine_resolve _ _ _) fun e _ => ?_
    exact .bind (e.failsInLine_checkBatchIndices _) fun _ _ => .ok _
  unfold Job.align Job.alignIn
  split
  · rename_i error herror
    exact .error (hcheck error herror)
  · split
    · exact .ok ()
    · exact .ok ()

theorem stopsInLine_execute (op : Operation) (input regions : Tensor) :
    StopsInLine (op.execute input regions) := by
  refine .bind (Stop.failsOnly_mapError (op.failsInLine_prepare _ _)) fun shape _ => ?_
  refine .bind (Tensor.stopsInLine_zeros shape) fun output _ => ?_
  exact .bind (Stop.failsOnly_mapError (failsInLine_align _ _)) fun _ _ => .ok _

end Operation

/-! ## Decoding -/

namespace Document

variable {α : Type} {d : Document}

/-- A document of the wrong type is described by what it is and by what is expected. -/
theorem failsInLine_wrongType (d : Document) {expected : String} (h : IsLine expected) :
    FailsInLine Failure.message (.error (d.wrongType expected) : Except Failure α) := by
  have hfound (found : Found) :
      IsLine (Failure.mismatched (.invalidType found expected)).message :=
    Mismatch.isLine_message (List.forall_mem_singleton.mpr h)
  refine .error ?_
  unfold wrongType
  cases d with
  | number value =>
    rcases value with _ | ⟨n⟩ | ⟨x⟩
    · exact Failure.isLine_malformed _
    · exact hfound (.integer n)
    · exact hfound (.floatingPoint x)
  | string value =>
    cases value with
    | none => exact Failure.isLine_malformed _
    | some s => exact hfound (.string s)
  | fault reason => exact Failure.isLine_malformed reason
  | _ => exact hfound _

theorem failsInLine_asWhole (lower upper : Int) {expected : String} (h : IsLine expected)
    (d : Document) : FailsInLine Failure.message (d.asWhole lower upper expected) := by
  unfold asWhole
  split
  · split
    · exact .ok _
    · exact .error (Mismatch.isLine_message (List.forall_mem_singleton.mpr h))
  · exact failsInLine_wrongType d h

theorem failsInLine_asUInt32 (d : Document) : FailsInLine Failure.message d.asUInt32 :=
  .bind (failsInLine_asWhole _ _ (by decide) d) fun _ _ => .ok _

theorem failsInLine_asInt32 (d : Document) : FailsInLine Failure.message d.asInt32 :=
  .bind (failsInLine_asWhole _ _ (by decide) d) fun _ _ => .ok _

theorem failsInLine_asSingle (d : Document) : FailsInLine Failure.message d.asSingle := by
  unfold asSingle
  split
  · exact .ok _
  · exact .ok _
  · exact failsInLine_wrongType d (by decide)

theorem failsInLine_asString (d : Document) : FailsInLine Failure.message d.asString := by
  unfold asString
  split
  · exact .ok _
  · exact failsInLine_wrongType d (by decide)

theorem failsInLine_asList {item : Document → Except Failure α}
    (hitem : ∀ d, FailsInLine Failure.message (item d)) (d : Document) :
    FailsInLine Failure.message (d.asList item) := by
  unfold asList
  split
  · exact .mapM fun d _ => hitem d
  · exact failsInLine_wrongType d (by decide)

theorem failsInLine_asOption {some? : Document → Except Failure α}
    (hsome : ∀ d, FailsInLine Failure.message (some? d)) (d : Document) :
    FailsInLine Failure.message (d.asOption some?) := by
  unfold asOption
  split
  · exact .ok none
  · exact (hsome d).map some

theorem failsInLine_skip (d : Document) : FailsInLine Failure.message d.skip := by
  unfold skip
  split
  · exact .error (Failure.isLine_malformed _)
  · exact .ok ()

theorem failsInLine_decode {decoder : Document → Except Failure α}
    (h : ∀ d, FailsInLine Failure.message (decoder d)) (text : String) :
    FailsInLine Failure.message (decode decoder text) := by
  refine .bind (h _) fun value _ => ?_
  split
  · exact .ok value
  · exact .error (Failure.isLine_malformed .trailingText)

end Document

/-! ## Records -/

namespace Schema

/-- The words of a schema have no line break, and what its fields refuse they refuse in line. -/
structure InLine (schema : Schema) : Prop where
  name : IsLine schema.name
  fields : ∀ field ∈ schema.fields, IsLine field.name ∧
    ∀ d, FailsInLine Failure.message (field.check d)

variable {schema : Schema}

theorem failsInLine_readMembers (h : schema.InLine) (present : Fields)
    (members : List (Option String × Document)) :
    FailsInLine Failure.message (schema.readMembers present members) := by
  induction members generalizing present with
  | nil => exact .ok present
  | cons member rest ih =>
    obtain ⟨key, d⟩ := member
    cases key with
    | none => exact .error (Failure.isLine_malformed _)
    | some key =>
      rw [readMembers]
      cases hfind : schema.fields.find? fun field => field.name == key with
      | none => exact .bind d.failsInLine_skip fun _ _ => ih present
      | some field =>
        have hfield := h.fields field (List.mem_of_find?_eq_some hfind)
        -- Only a key that is the name of a field can be reported.
        have hkey : field.name = key := by simpa using List.find?_some hfind
        dsimp only
        split
        · exact .error (Mismatch.isLine_message (List.forall_mem_singleton.mpr (hkey ▸ hfield.1)))
        · exact .bind (hfield.2 d) fun _ _ => ih _

theorem failsInLine_readItems (h : schema.InLine) {excess : Failure}
    (hexcess : IsLine excess.message) (present : Fields) {fields : List Field}
    (hfields : ∀ field ∈ fields, field ∈ schema.fields) (items : List Document) :
    FailsInLine Failure.message (schema.readItems excess present fields items) := by
  induction fields generalizing present items with
  | nil =>
    cases items with
    | nil => exact .ok present
    | cons item items => exact .error hexcess
  | cons field fields ih =>
    have hrest : ∀ field ∈ fields, field ∈ schema.fields := fun field hfield =>
      hfields field (List.mem_cons_of_mem _ hfield)
    cases items with
    | nil =>
      rw [readItems]
      split
      · exact ih present hrest []
      · refine .error (Mismatch.isLine_message (List.forall_mem_singleton.mpr ?_))
        simp only [Text.isLine_append, Text.isLine_toString, h.name]
        decide
    | cons d items =>
      have hfield := h.fields field (hfields field List.mem_cons_self)
      exact .bind (hfield.2 d) fun _ _ => ih _ hrest items

theorem failsInLine_read (h : schema.InLine) {excess : Nat → Failure}
    (hexcess : ∀ length, IsLine (excess length).message) (d : Document) :
    FailsInLine Failure.message (schema.read excess d) := by
  unfold read
  split
  · exact failsInLine_readMembers h _ _
  · exact failsInLine_readItems h (hexcess _) _ (fun _ hfield => hfield) _
  · exact Document.failsInLine_wrongType d (Text.isLine_append.mpr ⟨by decide, h.name⟩)

end Schema

namespace Fields

variable {α : Type} {decode : Document → Except Failure α}

theorem failsInLine_get (fields : Fields) {name : String} (hname : IsLine name)
    (h : ∀ d, FailsInLine Failure.message (decode d)) :
    FailsInLine Failure.message (fields.get name decode) := by
  unfold get
  split
  · exact h _
  · exact .error (Mismatch.isLine_message (List.forall_mem_singleton.mpr hname))

theorem failsInLine_getD (fields : Fields) (name : String) (default : α)
    (h : ∀ d, FailsInLine Failure.message (decode d)) :
    FailsInLine Failure.message (fields.getD name decode default) := by
  unfold getD
  split
  · exact h _
  · exact .ok default

end Fields

theorem Field.failsInLine_required {α : Type} {name : String}
    {decode : Document → Except Failure α} (h : ∀ d, FailsInLine Failure.message (decode d))
    (d : Document) : FailsInLine Failure.message ((Field.required name decode).check d) :=
  (h d).map _

theorem Field.failsInLine_optionally {α : Type} {name : String}
    {decode : Document → Except Failure α} (h : ∀ d, FailsInLine Failure.message (decode d))
    (d : Document) : FailsInLine Failure.message ((Field.optionally name decode).check d) :=
  (h d).map _

/-! ## Fixtures -/

theorem Document.isLine_unclosed (length : Nat) : IsLine (unclosed length).message :=
  Failure.isLine_malformed .unexpected

theorem Shape.failsInLine_ofDocument (d : Document) : FailsInLine Failure.message (ofDocument d) :=
  (Document.failsInLine_asList Document.failsInLine_asUInt32 d).map _

theorem Tensor.failsInLine_dataOfDocument (d : Document) :
    FailsInLine Failure.message (dataOfDocument d) :=
  (Document.failsInLine_asList Document.failsInLine_asSingle d).map _

theorem Tensor.inLine_schema : schema.InLine where
  name := by decide
  fields := by
    simp only [schema, List.forall_mem_cons, List.not_mem_nil, false_implies, implies_true,
      and_true]
    exact ⟨⟨by decide, Field.failsInLine_required Shape.failsInLine_ofDocument⟩,
      ⟨by decide, Field.failsInLine_required failsInLine_dataOfDocument⟩⟩

theorem Tensor.failsInLine_ofDocument (d : Document) :
    FailsInLine Failure.message (ofDocument d) := by
  refine .bind (Schema.failsInLine_read inLine_schema Document.isLine_unclosed d) fun fields _ => ?_
  refine .bind (fields.failsInLine_get (by decide) Shape.failsInLine_ofDocument) fun shape _ => ?_
  refine .bind (fields.failsInLine_get (by decide) failsInLine_dataOfDocument) fun data _ => ?_
  exact (failsInLine_ofData shape data).mapError fun e he =>
    Mismatch.isLine_message (List.forall_mem_singleton.mpr he)

theorem Params.inLine_schema : schema.InLine where
  name := by decide
  fields := by
    simp only [schema, List.forall_mem_cons, List.not_mem_nil, false_implies, implies_true,
      and_true]
    exact ⟨⟨by decide, Field.failsInLine_required Document.failsInLine_asUInt32⟩,
      ⟨by decide, Field.failsInLine_required Document.failsInLine_asUInt32⟩,
      ⟨by decide, Field.failsInLine_required Document.failsInLine_asSingle⟩,
      ⟨by decide, Field.failsInLine_optionally Document.failsInLine_asInt32⟩⟩

theorem Params.failsInLine_ofDocument (d : Document) :
    FailsInLine Failure.message (ofDocument Document.unclosed d) := by
  refine .bind (Schema.failsInLine_read inLine_schema Document.isLine_unclosed d) fun fields _ => ?_
  refine .bind (fields.failsInLine_get (by decide) Document.failsInLine_asUInt32) fun _ _ => ?_
  refine .bind (fields.failsInLine_get (by decide) Document.failsInLine_asUInt32) fun _ _ => ?_
  refine .bind (fields.failsInLine_get (by decide) Document.failsInLine_asSingle) fun _ _ => ?_
  exact .bind (fields.failsInLine_getD _ _ Document.failsInLine_asInt32) fun _ _ => .ok _

namespace Fixture

theorem failsInLine_description (d : Document) :
    FailsInLine Failure.message (d.asOption Document.asString) :=
  Document.failsInLine_asOption Document.failsInLine_asString d

theorem failsInLine_expected (d : Document) :
    FailsInLine Failure.message (d.asOption Tensor.ofDocument) :=
  Document.failsInLine_asOption Tensor.failsInLine_ofDocument d

theorem inLine_schema : schema.InLine where
  name := by decide
  fields := by
    simp only [schema, List.forall_mem_cons, List.not_mem_nil, false_implies, implies_true,
      and_true]
    exact ⟨⟨by decide, Field.failsInLine_required Document.failsInLine_asString⟩,
      ⟨by decide, Field.failsInLine_optionally failsInLine_description⟩,
      ⟨by decide, Field.failsInLine_required Params.failsInLine_ofDocument⟩,
      ⟨by decide, Field.failsInLine_required Tensor.failsInLine_ofDocument⟩,
      ⟨by decide, Field.failsInLine_required Tensor.failsInLine_ofDocument⟩,
      ⟨by decide, Field.failsInLine_optionally failsInLine_expected⟩,
      ⟨by decide, Field.failsInLine_optionally Document.failsInLine_asSingle⟩⟩

/-- The texts of a document that is no fixture do not break the message. -/
theorem failsInLine_ofDocument (d : Document) : FailsInLine Failure.message (ofDocument d) := by
  refine .bind (Schema.failsInLine_read inLine_schema Document.isLine_unclosed d) fun fields _ => ?_
  refine .bind (fields.failsInLine_get (by decide) Document.failsInLine_asString) fun _ _ => ?_
  refine .bind (fields.failsInLine_getD _ _ failsInLine_description) fun _ _ => ?_
  refine .bind (fields.failsInLine_get (by decide) Params.failsInLine_ofDocument) fun _ _ => ?_
  refine .bind (fields.failsInLine_get (by decide) Tensor.failsInLine_ofDocument) fun _ _ => ?_
  refine .bind (fields.failsInLine_get (by decide) Tensor.failsInLine_ofDocument) fun _ _ => ?_
  refine .bind (fields.failsInLine_getD _ _ failsInLine_expected) fun _ _ => ?_
  exact .bind (fields.failsInLine_getD _ _ Document.failsInLine_asSingle) fun _ _ => .ok _

theorem failsInLine_ofJson (text : String) : FailsInLine Error.message (ofJson text) :=
  (Document.failsInLine_decode failsInLine_ofDocument text).mapError fun _ hfailure =>
    Error.isLine_message (List.forall_mem_singleton.mpr hfailure)

/-- Only what the system says about a file can break the message on a file that is not loaded. -/
theorem failsInLine_ofFile {file : Except FileError ByteArray}
    (h : ∀ text, file = .error (.other text) → IsLine text) :
    FailsInLine Error.message (ofFile file) := by
  have hfile {error : FileError} (herror : ∀ text, error = .other text → IsLine text) :
      IsLine (Error.file error).message :=
    Error.isLine_message (List.forall_mem_singleton.mpr (FileError.isLine_message herror))
  unfold ofFile
  split
  · rename_i error
    refine .error (hfile fun text htext => ?_)
    exact h text (congrArg Except.error htext)
  · split
    · exact .error (hfile nofun)
    · exact failsInLine_ofJson _

theorem stopsInLine_run (f : Fixture) : StopsInLine f.run :=
  .bind (Stop.failsOnly_mapError (Operation.failsInLine_ofParams _)) fun op _ =>
    op.stopsInLine_execute _ _

theorem isLine_shapeMismatch {f : Fixture} (h : IsLine f.name) (actual expected : Tensor) :
    IsLine (f.shapeMismatch actual expected).message := by
  refine Error.isLine_message (List.forall_mem_singleton.mpr ?_)
  simp only [Text.isLine_append, Shape.isLine_text, h, and_true]
  decide

/-- Only the name of the fixture can break the message on a fixture that is not verified. -/
theorem stopsInLine_verify {f : Fixture} (h : IsLine f.name) : StopsInLine f.verify := by
  unfold verify
  split
  · refine .bind f.stopsInLine_run fun actual _ => ?_
    split
    · exact .ok _
    · exact .error (Stop.only_failed (isLine_shapeMismatch h _ _))
  · exact .error (Stop.only_failed (Error.isLine_message (List.forall_mem_singleton.mpr h)))

end Fixture

end RegionPooling
