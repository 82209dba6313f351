import RegionPooling.Command.Execute
import RegionPooling.Proofs.Fixture.Verification
import RegionPooling.Proofs.Messages

/-!
# What verifying prints

Verifying goes through its paths in order and looks at each file by itself: the record that is
printed on a path depends on this path and on what stands in its file, not on the paths around it.
The records are printed one after the other, then the ruler and the tally. The program succeeds
if every fixture passes, and a fixture passes if it is loaded and verified and its report stands
its check, so the exit code, the first word of each record and the tally all say the same.

A fixture may ask for an output beyond the size of buffers. Then verifying panics: the records of
the fixtures before have been printed, and nothing follows them (`verifyFixtures_of_panic`).

Names and paths are printed as they are. A name with a line break therefore takes its record over
several lines, and a line may then begin like a record without being one
(`brokenName_prints_pass`). Without line breaks in the names and the paths, in what the system says
about a file, and in what the reader of documents remarks on it, every record is one line
(`isLine_record`). All of this is so whatever the remarks are.

Main results:

* `Arguments.parse_verify` — behind the separator, every path that is not empty is taken.
* `begins_record_iff` — the first word of a record is the verdict on its fixture.
* `verifyRest_append` — one step of a run after the other, as far as there are records.
* `execute_verify` — the exit code, the records, the tally and the lines, for every list of paths.
-/

namespace RegionPooling

open Text (IsLine)

/-- A report keeps the name of its fixture. -/
theorem Fixture.name_of_verify {f : Fixture} {r : Report} (h : f.verify = .ok r) :
    r.name = f.name := by
  obtain ⟨_, _, -, -, -, hname, -⟩ := verify_eq_ok_iff.mp h
  exact hname

/-! ## Paths on the command line -/

namespace Arguments

variable {paths : List String} {d : Draft}

theorem mapM_readPath (h : ∀ path ∈ paths, path ≠ "") : paths.mapM readPath = .ok paths := by
  induction paths with
  | nil => rfl
  | cons path rest ih =>
    have hpath : readPath path = .ok path := if_neg (h path List.mem_cons_self)
    have hrest := ih fun other hother => h other (List.mem_cons_of_mem _ hother)
    rw [List.mapM_cons, hpath, hrest]
    rfl

theorem settle_paths (h : ∀ path ∈ paths, path ≠ "") :
    d.settle (.paths paths) = .ok { d with paths := d.paths ++ paths } := by
  rw [Draft.settle, mapM_readPath h]
  rfl

/-- Behind the separator every argument is a path, whatever it looks like. -/
theorem readAll_literal (texts rest : List String) :
    readAll verifyGrammar true d (.paths texts) rest = d.settle (.paths (texts ++ rest)) := by
  induction rest generalizing texts with
  | nil => simp [readAll]
  | cons argument rest ih =>
    -- One more text waits to be read as a path.
    have hstep : readAll verifyGrammar true d (.paths texts) (argument :: rest) =
        readAll verifyGrammar true d (.paths (texts ++ [argument])) rest := by
      rw [readAll]
      · rfl
      all_goals simp
    rw [hstep, ih, List.append_assoc, List.singleton_append]

theorem readAll_separator (path : String) (rest : List String) :
    readAll verifyGrammar false d .none ("--" :: path :: rest) =
      d.settle (.paths (path :: rest)) := by
  have hseparator : Form.of "--" = .separator := rfl
  have hfirst : readAll verifyGrammar true d .none (path :: rest) =
      readAll verifyGrammar true d (.paths [path]) rest := by
    rw [readAll]
    · rfl
    all_goals simp
  rw [readAll, hfirst, readAll_literal, List.singleton_append]
  exact hseparator

/-- Every list of paths can be given: after the separator not even a dash is an option. -/
theorem parse_verify (hne : paths ≠ []) (h : ∀ path ∈ paths, path ≠ "") :
    parse ("verify" :: "--" :: paths) = .ok ⟨0, .verify paths⟩ := by
  obtain ⟨path, rest, rfl⟩ := List.exists_cons_of_ne_nil hne
  have hread : readAll verifyGrammar false .empty .none ("--" :: path :: rest) =
      .ok { Draft.empty with paths := path :: rest } := by
    rw [readAll_separator, settle_paths h]
    rfl
  have hcommand : command? "verify" = some (verifyGrammar, fun d =>
      if d.paths = [] then .error .missingRequiredArgument else .ok (.verify d.paths)) := rfl
  rw [parse, readFront, if_neg (by decide), if_neg (by decide), hcommand]
  dsimp only
  rw [hread]
  rfl

end Arguments

namespace Command

/-! ## Verdicts -/

/-- The fixture in a file is loaded and verified, and its report stands the check. -/
def Passes (file : Except FileError ByteArray) : Prop :=
  ∃ f r, Fixture.ofFile file = .ok f ∧ f.check = .ok r

/-- What can be said of the fixture in a file. -/
inductive Verdict where
  /-- The report stands the check. -/
  | pass
  /-- There is a report, but it is refused. -/
  | fail
  /-- There is no report. -/
  | error
  deriving DecidableEq

/-- The first word of a record. -/
def Verdict.word : Verdict → String
  | pass => "PASS "
  | fail => "FAIL "
  | error => "ERROR "

def verdict (file : Except FileError ByteArray) : Verdict :=
  match report file with
  | .error _ => .error
  | .ok r =>
    match r.check with
    | .ok _ => .pass
    | .error _ => .fail

/-- Whether a line begins with a word. -/
def begins (word line : String) : Bool := word.toList.isPrefixOf line.toList

variable {remarks : Remarks} {path : String} {file : Except FileError ByteArray}
  {record : Record}

theorem report_eq_ok_iff {r : Report} :
    report file = .ok r ↔ ∃ f, Fixture.ofFile file = .ok f ∧ f.verify = .ok r := by
  unfold report
  rw [bind_eq_ok]
  simp only [mapError_eq_ok]

/-- There is no record where verifying panics. -/
theorem report_eq_capacityOverflow_iff : report file = .error .capacityOverflow ↔
    ∃ f, Fixture.ofFile file = .ok f ∧ f.expected ≠ none ∧ f.Oversized := by
  unfold report
  -- Loading never panics, so it is verifying that does.
  rw [bind_eq_error]
  simp only [mapError_eq_ok, mapError_eq_error, Fixture.verify_eq_capacityOverflow_iff,
    reduceCtorEq, and_false, exists_false, false_or]

theorem passes_iff : Passes file ↔ ∃ r, report file = .ok r ∧ r.passed = true := by
  simp only [Passes, report_eq_ok_iff, Fixture.check_eq_ok_iff]
  constructor
  · rintro ⟨f, r, hfile, hverify, hpassed⟩
    exact ⟨r, ⟨f, hfile, hverify⟩, hpassed⟩
  · rintro ⟨r, ⟨f, hfile, hverify⟩, hpassed⟩
    exact ⟨f, r, hfile, hverify, hpassed⟩

/-! ## Records -/

theorem record?_eq_none_iff :
    record? remarks path file = none ↔ report file = .error .capacityOverflow := by
  rw [record?, Option.map_eq_none_iff, Stop.returned?_eq_none_iff]

/-- A record is on a report or on an error. -/
theorem record_cases (h : record? remarks path file = some record) :
    (∃ r, report file = .ok r ∧ record.passes = r.passed ∧
      record.line = reportLine path (remarks.on file) (.ok r)) ∨
    ∃ error, report file = .error (.failed error) ∧ record.passes = false ∧
      record.line = reportLine path (remarks.on file) (.error error) := by
  obtain ⟨r, hreturned, rfl⟩ := Option.map_eq_some_iff.mp h
  have hreport := Stop.eq_of_returned? hreturned
  cases r with
  | ok r => exact .inl ⟨r, hreport, rfl, rfl⟩
  | error error => exact .inr ⟨error, hreport, rfl, rfl⟩

theorem passes_record_iff (h : record? remarks path file = some record) :
    record.passes = true ↔ Passes file := by
  rw [passes_iff]
  rcases record_cases h with ⟨r, hreport, hpasses, -⟩ | ⟨error, hreport, hpasses, -⟩
  · simp [hreport, hpasses]
  · simp [hreport, hpasses]

/-- The verdict on a report is whether it has passed. -/
theorem verdict_of_ok {r : Report} (h : report file = .ok r) :
    verdict file = if r.passed then .pass else .fail := by
  rw [verdict, h]
  cases hpassed : r.passed with
  | true => simp [Report.check, hpassed]
  | false => simp [Report.check, hpassed]

theorem verdict_of_error {stop : Stop} (h : report file = .error stop) : verdict file = .error := by
  rw [verdict, h]

theorem verdict_eq_pass_iff : verdict file = .pass ↔ Passes file := by
  rw [passes_iff]
  cases h : report file with
  | error stop => simp [verdict_of_error h]
  | ok r => simp [verdict_of_ok h]

theorem begins_append (word text : String) : begins word (word ++ text) = true := by
  rw [begins, List.isPrefixOf_iff_prefix, String.toList_append]
  exact List.prefix_append _ _

theorem begins_record (h : record? remarks path file = some record) :
    begins (verdict file).word record.line = true := by
  rcases record_cases h with ⟨r, hreport, -, hline⟩ | ⟨error, hreport, -, hline⟩
  · rw [hline, verdict_of_ok hreport]
    unfold reportLine
    dsimp only
    split
    · exact begins_append _ _
    · rw [String.append_assoc, String.append_assoc]
      exact begins_append _ _
  · rw [hline, verdict_of_error hreport]
    unfold reportLine
    simp only [String.append_assoc]
    exact begins_append _ _

/-- No text begins with two of the words. -/
theorem eq_of_begins {v w : Verdict} {text : String} (hv : begins v.word text = true)
    (hw : begins w.word text = true) : v = w := by
  rw [begins, List.isPrefixOf_iff_prefix] at hv hw
  -- Of two words in front of one text, one is in front of the other.
  have hcases := List.prefix_or_prefix_of_prefix hv hw
  revert hcases
  cases v
  all_goals
    cases w
    all_goals decide

/-- The first word of a record is the verdict on its fixture, and no other word is. -/
theorem begins_record_iff (h : record? remarks path file = some record) (v : Verdict) :
    begins v.word record.line = true ↔ verdict file = v := by
  constructor
  · intro hv
    exact eq_of_begins (begins_record h) hv
  · rintro rfl
    exact begins_record h

/-! ## Records on one line -/

/-- Nothing that a record takes over has a line break. -/
structure Unbroken (remarks : Remarks) (path : String) (file : Except FileError ByteArray) :
    Prop where
  path : IsLine path
  name : ∀ f, Fixture.ofFile file = .ok f → IsLine f.name
  system : ∀ text, file = .error (.other text) → IsLine text
  remark : ∀ bytes failure, file = .ok bytes → IsLine (remarks bytes failure)

theorem isLine_remark (h : Unbroken remarks path file) (error : Error) :
    IsLine (remarks.on file error) := by
  unfold Remarks.on
  split
  · exact h.remark _ _ rfl
  · decide

/-- A file that is not loaded has no name, and one that is loaded has no error of the system. -/
theorem stopsInLine_report (h : Unbroken remarks path file) : StopsInLine (report file) := by
  refine .bind (Stop.failsOnly_mapError (Fixture.failsInLine_ofFile h.system)) fun f hfile => ?_
  exact Fixture.stopsInLine_verify (h.name f (mapError_eq_ok.mp hfile))

theorem isLine_record (h : record? remarks path file = some record)
    (hunbroken : Unbroken remarks path file) : IsLine record.line := by
  have hpath := hunbroken.path
  rcases record_cases h with ⟨r, hreport, -, hline⟩ | ⟨error, hreport, -, hline⟩
  · obtain ⟨f, hfile, hverify⟩ := report_eq_ok_iff.mp hreport
    have hname : IsLine r.name := Fixture.name_of_verify hverify ▸ hunbroken.name f hfile
    have hnumber (x : Single) := Layout.isLine_renderRounded 3 x
    rw [hline]
    unfold reportLine
    dsimp only
    split
    · simp only [Text.isLine_append, hpath, hname, hnumber, and_true]
      decide
    · simp only [Text.isLine_append, hpath, hname, hnumber, and_true]
      decide
  · have hmessage : IsLine error.message := stopsInLine_report hunbroken _ hreport error rfl
    have hremark := isLine_remark hunbroken error
    have hcode := error.isLine_code
    rw [hline]
    unfold reportLine
    simp only [Text.isLine_append, hpath, hcode, hmessage, hremark, and_true]
    decide

theorem isLine_tally (passed failed : Nat) : IsLine (tally passed failed) := by
  simp only [tally, Text.isLine_append, Text.isLine_toString, true_and]
  decide

/-! ## Runs -/

section Runs

variable {σ : Type} {disk : Disk (StateM σ)} {s : σ} {files : String → Except FileError ByteArray}
  {paths : List String} {records : List Record}

/-- The records on the files at the paths, one for each path. -/
def Records (remarks : Remarks) (files : String → Except FileError ByteArray)
    (paths : List String) (records : List Record) : Prop :=
  List.Forall₂ (fun path record => record? remarks path (files path) = some record) paths records

theorem exists_records (remarks : Remarks)
    (h : ∀ path ∈ paths, report (files path) ≠ .error .capacityOverflow) :
    ∃ records, Records remarks files paths records := by
  induction paths with
  | nil => exact ⟨[], .nil⟩
  | cons path rest ih =>
    obtain ⟨records, hrecords⟩ := ih fun other hother => h other (List.mem_cons_of_mem _ hother)
    have hpath : record? remarks path (files path) ≠ none :=
      mt record?_eq_none_iff.mp (h path List.mem_cons_self)
    obtain ⟨record, hrecord⟩ := Option.ne_none_iff_exists'.mp hpath
    exact ⟨record :: records, .cons hrecord hrecords⟩

/-- What is read at one path leaves the files as they are for the next one. -/
theorem verifyRest_cons (hread : ∀ path, disk.read path s = (files path, s)) (done : List Record)
    (path : String) (rest : List String) : verifyRest disk remarks done (path :: rest) s =
      match record? remarks path (files path) with
      | none => (.panicked (printedLines (done.map Record.line)), s)
      | some record => verifyRest disk remarks (done ++ [record]) rest s := by
  rw [verifyRest]
  simp only [bind, StateT.bind, hread]
  cases record? remarks path (files path) with
  | none => rfl
  | some record => rfl

/-- Paths that have records are gone through, whatever follows them. By induction along these paths,
from any records that there are already. -/
theorem verifyRest_append (hread : ∀ path, disk.read path s = (files path, s))
    (h : Records remarks files paths records) (done : List Record) (rest : List String) :
    verifyRest disk remarks done (paths ++ rest) s =
      verifyRest disk remarks (done ++ records) rest s := by
  induction h generalizing done with
  | nil => simp
  | cons hrecord _ ih =>
    rw [List.cons_append, verifyRest_cons hread, hrecord]
    exact (ih _).trans (by rw [List.append_assoc, List.singleton_append])

theorem verifyFixtures_eq (hread : ∀ path, disk.read path s = (files path, s))
    (h : Records remarks files paths records) :
    verifyFixtures disk remarks paths s = (summary records, s) := by
  -- Nothing has been printed before the first path, and nothing follows the last one.
  have happend := verifyRest_append hread h [] []
  rw [List.append_nil, List.nil_append] at happend
  exact happend

/-- Where verifying panics, the records of the paths before have been printed, and nothing else. -/
theorem verifyFixtures_of_panic (hread : ∀ path, disk.read path s = (files path, s))
    (h : Records remarks files paths records) {path : String} (rest : List String)
    (hpath : report (files path) = .error .capacityOverflow) :
    verifyFixtures disk remarks (paths ++ path :: rest) s =
      (.panicked (printedLines (records.map Record.line)), s) := by
  have hnone : record? remarks path (files path) = none := record?_eq_none_iff.mpr hpath
  have happend := verifyRest_append hread h [] (path :: rest)
  rw [verifyRest_cons hread, hnone] at happend
  exact happend

/-! ## Summaries -/

theorem forall_passes_iff (h : Records remarks files paths records) :
    (∀ record ∈ records, record.passes = true) ↔ ∀ path ∈ paths, Passes (files path) := by
  induction h with
  | nil => simp
  | cons hrecord _ ih =>
    rw [List.forall_mem_cons, List.forall_mem_cons, ih, passes_record_iff hrecord]

theorem forall_isLine (h : Records remarks files paths records)
    (hunbroken : ∀ path ∈ paths, Unbroken remarks path (files path)) :
    ∀ record ∈ records, IsLine record.line := by
  induction h with
  | nil => simp
  | cons hrecord _ ih =>
    rw [List.forall_mem_cons] at hunbroken ⊢
    exact ⟨isLine_record hrecord hunbroken.1, ih hunbroken.2⟩

/-- The records of fixtures that pass are those that begin like a pass. -/
theorem countP_lines (h : Records remarks files paths records) :
    (records.map Record.line).countP (begins Verdict.pass.word) = records.countP Record.passes := by
  rw [List.countP_map]
  induction h with
  | nil => rfl
  | @cons path record _ _ hrecord _ ih =>
    -- A record begins like a pass if and only if its fixture passes, and so it is counted or not.
    have hword : begins Verdict.pass.word record.line = true ↔ record.passes = true := by
      rw [begins_record_iff hrecord, verdict_eq_pass_iff, passes_record_iff hrecord]
    rw [List.countP_cons, List.countP_cons, ih]
    simp only [Function.comp_apply, hword]

/-- The line on the file at a path. It is the same wherever the path stands, and its first word is
the verdict on the fixture. -/
structure IsRecord (remarks : Remarks) (path : String) (file : Except FileError ByteArray)
    (line : String) : Prop where
  printed : (record? remarks path file).map Record.line = some line
  word : ∀ v : Verdict, begins v.word line = true ↔ verdict file = v

theorem isRecord_lines (h : Records remarks files paths records) :
    List.Forall₂ (fun path line => IsRecord remarks path (files path) line) paths
      (records.map Record.line) := by
  rw [List.forall₂_map_right_iff]
  refine h.imp fun path record hrecord => ?_
  exact { printed := by rw [hrecord, Option.map_some], word := begins_record_iff hrecord }

/-- What verifying the files at the paths comes to. -/
structure IsVerification (remarks : Remarks) (files : String → Except FileError ByteArray)
    (paths : List String) (outcome : Outcome) : Prop where
  succeeds : outcome.exitCode = 0 ↔ ∀ path ∈ paths, Passes (files path)
  fails : outcome.exitCode = 1 ↔ ∃ path ∈ paths, ¬ Passes (files path)
  /-- The records stand before the ruler and the tally, which counts them by their first word. -/
  output : ∃ lines passed failed,
    List.Forall₂ (fun path line => IsRecord remarks path (files path) line) paths lines ∧
    passed = lines.countP (begins Verdict.pass.word) ∧
    passed + failed = paths.length ∧
    outcome.output = printedLines (lines ++ [ruler, tally passed failed]) ∧
    -- Records without line breaks are the lines before the last two.
    ((∀ path ∈ paths, Unbroken remarks path (files path)) →
      Text.parts '\n' outcome.output.toList =
        (lines ++ [ruler, tally passed failed]).map String.toList ++ [[]])

theorem isVerification_summary (h : Records remarks files paths records) :
    IsVerification remarks files paths (summary records) := by
  have hsum : records.countP Record.passes + records.countP (!·.passes) = records.length := by
    rw [List.length_eq_countP_add_countP Record.passes]
    simp
  have hzero : records.countP (!·.passes) = 0 ↔ ∀ path ∈ paths, Passes (files path) := by
    rw [← forall_passes_iff h, List.countP_eq_zero]
    simp
  have hsome : records.countP (!·.passes) ≠ 0 ↔ ∃ path ∈ paths, ¬ Passes (files path) := by
    rw [Ne, hzero]
    simp
  have hpassed : records.length - records.countP (!·.passes) = records.countP Record.passes := by
    omega
  -- The exit code says whether any record has failed, and nothing more.
  refine {
    succeeds := ?succeeds
    fails := ?fails
    output := ?output }
  case succeeds =>
    rw [← hzero, summary]
    by_cases hall : records.countP (!·.passes) = 0
    · simp [hall]
    · simp [hall]
  case fails =>
    rw [← hsome, summary]
    by_cases hall : records.countP (!·.passes) = 0
    · simp [hall]
    · simp [hall]
  case output =>
    refine ⟨records.map Record.line, _, records.countP (!·.passes), isRecord_lines h, rfl,
      ?_, ?_, ?_⟩
    · rw [countP_lines h, hsum, h.length_eq]
    · rw [countP_lines h, ← hpassed, summary]
    · intro hunbroken
      rw [countP_lines h, ← hpassed, summary]
      refine Text.parts_join fun line hline => ?_
      rcases List.mem_append.mp hline with hrecord | hlast
      · obtain ⟨record, hmem, rfl⟩ := List.mem_map.mp hrecord
        exact forall_isLine h hunbroken record hmem
      · rcases List.mem_pair.mp hlast with rfl | rfl
        · decide
        · exact isLine_tally _ _

/--
For every list of paths that is not empty, with repetitions or without, and whatever their files
hold, if no fixture that expects something asks for an output beyond the size of buffers: the
program succeeds if and only if every fixture passes, and prints one record for each path, in order,
then the ruler and the tally. The same is printed when the paths are given on a command line.
-/
theorem execute_verify (hread : ∀ path, disk.read path s = (files path, s)) (remarks : Remarks)
    (hne : paths ≠ []) (hsize : ∀ path ∈ paths, ∀ f, Fixture.ofFile (files path) = .ok f →
      f.expected ≠ none → ¬ f.Oversized) :
    ∃ outcome, execute disk remarks (.verify paths) s = (outcome, s) ∧
      IsVerification remarks files paths outcome ∧
      ((∀ path ∈ paths, path ≠ "") →
        respond disk remarks ("verify" :: "--" :: paths) s = (outcome, s)) := by
  have hreturns : ∀ path ∈ paths, report (files path) ≠ .error .capacityOverflow := by
    intro path hpath hpanics
    obtain ⟨f, hfile, hexpected, hoversized⟩ := report_eq_capacityOverflow_iff.mp hpanics
    exact hsize path hpath f hfile hexpected hoversized
  obtain ⟨records, hrecords⟩ := exists_records remarks hreturns
  have hexecute := verifyFixtures_eq hread hrecords
  refine ⟨_, hexecute, isVerification_summary hrecords, fun hpaths => ?_⟩
  have hparse := Arguments.parse_verify hne hpaths
  unfold respond
  rw [hparse]
  exact hexecute

end Runs

/-! ## A fixture in a directory -/

/-- A pixel of one. -/
def pixel : Tensor := ⟨⟨[1, 1, 1, 1]⟩, #[Binary.ofNat 1], by decide⟩

/-- One pixel, pooled into one cell as it was recorded. -/
def onePixel (name : String) : Fixture where
  name := name
  description := none
  params := Params.ofGrid 1 1
  input := pixel
  regions := ⟨⟨[1, 4]⟩, #[.zero false, .zero false, Binary.ofNat 1, Binary.ofNat 1], by decide⟩
  expected := some pixel
  tolerance := Fixture.defaultTolerance

/-- The directory of a fixture. -/
def directoryOf (f : Fixture) : Directory := ⟨[("f.json", f.page.toUTF8)]⟩

theorem isFinite_onePixel (name : String) : (onePixel name).IsFinite where
  spatialScale := show (onePixel "").params.spatialScale.isFinite = true by decide +kernel
  input := show (onePixel "").input.isFinite = true by decide +kernel
  regions := show (onePixel "").regions.isFinite = true by decide +kernel
  expected := by
    rintro t ⟨⟩
    decide +kernel
  tolerance := show (onePixel "").tolerance.isFinite = true by decide +kernel

theorem read_directoryOf (f : Fixture) : (directoryOf f).read "f.json" = .ok f.page.toUTF8 := rfl

theorem ofFile_onePixel (name : String) :
    Fixture.ofFile ((directoryOf (onePixel name)).read "f.json") = .ok (onePixel name) := by
  rw [read_directoryOf, Fixture.ofFile_toUTF8]
  exact Fixture.ofJson_page (isFinite_onePixel name)

/-- The output is what was recorded. -/
theorem verify_onePixel (name : String) :
    (onePixel name).verify = .ok ⟨name, .zero false, Fixture.defaultTolerance⟩ := by
  have hrun : (onePixel "").run.toOption.map (·.maxAbsDiff pixel) = some (some (.zero false)) := by
    decide +kernel
  obtain ⟨actual, hrun, hdiff⟩ := exists_ok_of_toOption_map hrun
  -- The name plays no part in the run.
  have hname : (onePixel name).run = (onePixel "").run := rfl
  exact Fixture.verify_eq_ok_iff.mpr ⟨pixel, actual, rfl, hname.trans hrun, hdiff, rfl, rfl⟩

theorem report_onePixel (name : String) : report ((directoryOf (onePixel name)).read "f.json") =
    .ok ⟨name, .zero false, Fixture.defaultTolerance⟩ :=
  report_eq_ok_iff.mpr ⟨_, ofFile_onePixel name, verify_onePixel name⟩

/-- A reader without remarks. -/
def silent : Remarks := fun _ _ => ""

theorem record_onePixel (name : String) :
    record? silent "f.json" ((directoryOf (onePixel name)).read "f.json") =
      some ⟨reportLine "f.json" (fun _ => "") (.ok ⟨name, .zero false, Fixture.defaultTolerance⟩),
        true⟩ := by
  rw [record?, report_onePixel]
  rfl

theorem unbroken_onePixel {name : String} (h : IsLine name) :
    Unbroken silent "f.json" ((directoryOf (onePixel name)).read "f.json") where
  path := by decide
  name := by
    intro f hf
    rw [ofFile_onePixel] at hf
    cases hf
    exact h
  system := by
    intro text htext
    rw [read_directoryOf] at htext
    cases htext
  remark := by
    intro bytes failure _
    rw [silent]
    decide

theorem unbroken_notFound {path : String} (h : IsLine path) :
    Unbroken silent path (.error .notFound) where
  path := h
  name := nofun
  system := nofun
  remark := nofun

theorem onePixel_execute_verify :
    let d := directoryOf (onePixel "one pixel")
    (∀ path, Directory.disk.read path d = (d.read path, d)) ∧
      ∃ outcome, respond Directory.disk silent ["verify", "--", "f.json", "none.json", "f.json"] d =
          (outcome, d) ∧
        outcome.exitCode = 1 ∧ (Text.parts '\n' outcome.output.toList).length = 6 := by
  intro d
  have hread : ∀ path, Directory.disk.read path d = (d.read path, d) := fun _ => rfl
  have hnone : d.read "none.json" = .error .notFound := rfl
  -- The fixture has a report, so its output is not too large; the other file has no fixture.
  have hsize : ∀ path ∈ ["f.json", "none.json", "f.json"], ∀ f,
      Fixture.ofFile (d.read path) = .ok f → f.expected ≠ none → ¬ f.Oversized := by
    have hpixel : ∀ f, Fixture.ofFile (d.read "f.json") = .ok f → f.expected ≠ none →
        ¬ f.Oversized := by
      intro f hfile hexpected hoversized
      have hpanics := report_eq_capacityOverflow_iff.mpr ⟨f, hfile, hexpected, hoversized⟩
      rw [report_onePixel] at hpanics
      cases hpanics
    have hlost : ∀ f, Fixture.ofFile (d.read "none.json") = .ok f → f.expected ≠ none →
        ¬ f.Oversized := by
      intro f hfile
      rw [hnone] at hfile
      cases hfile
    exact List.forall_mem_cons.mpr ⟨hpixel,
      List.forall_mem_cons.mpr ⟨hlost, List.forall_mem_singleton.mpr hpixel⟩⟩
  obtain ⟨outcome, -, h, hrespond⟩ := execute_verify hread silent (by simp) hsize
  refine ⟨hread, outcome, hrespond (by decide), ?_, ?_⟩
  · refine h.fails.mpr ⟨"none.json", by decide, ?_⟩
    rw [passes_iff, hnone]
    rintro ⟨_, ⟨⟩, -⟩
  · obtain ⟨lines, passed, failed, hlines, -, -, -, hparts⟩ := h.output
    have hpixel : Unbroken silent "f.json" (d.read "f.json") := unbroken_onePixel (by decide)
    have hlost : Unbroken silent "none.json" (d.read "none.json") := by
      rw [hnone]
      exact unbroken_notFound (by decide)
    have hlength : lines.length = 3 := hlines.length_eq.symm
    rw [hparts (by simp [hpixel, hlost])]
    simp [hlength]

/-- The record of a name with a line break takes two lines, and both begin like a pass. -/
theorem brokenName_prints_pass :
    let d := directoryOf (onePixel "first\nPASS second")
    ∃ outcome, execute Directory.disk silent (.verify ["f.json"]) d = (outcome, d) ∧
      Text.parts '\n' outcome.output.toList =
        ["PASS first", "PASS second (f.json) max diff 0.000e0", ruler, tally 1 0, ""].map
          String.toList := by
  intro d
  have hread : ∀ path, Directory.disk.read path d = (d.read path, d) := fun _ => rfl
  have hrecords : Records silent d.read ["f.json"] [_] := .cons (record_onePixel _) .nil
  refine ⟨_, verifyFixtures_eq hread hrecords, ?_⟩
  decide +kernel

end Command

end RegionPooling
