import RegionPooling.Command.Arguments
import RegionPooling.Command.Directory
import RegionPooling.Fixture

/-!
# Executing commands

What the program does for a command line: which files it reads and writes, what it prints,
and with which code it exits. Files come through a `Disk`, so that the same definitions run
on the files of the system and on a directory in memory.

Two things are not told here. How the reader of documents words a fault in a text, and on which
line and in which column it finds something wrong, is a parameter, `Remarks`. And of what goes to
the stream for errors only the report on a failure is kept, but neither the lines of the log nor
what the system says when the program panics.
-/

namespace RegionPooling

/-- What a program run leaves behind besides files. -/
structure Outcome where
  exitCode : Nat
  output : String
  /-- The report on a failure, without the log. -/
  errors : String
  deriving DecidableEq

namespace Outcome

/-- Prints lines and succeeds. -/
def printed (output : String) : Outcome := ⟨0, output, ""⟩

/-- The causes of a failure, numbered if there are several. -/
def causes : List String → String
  | [cause] => "    " ++ cause ++ "\n"
  | causes =>
    String.join (causes.zipIdx.map fun (cause, i) => "    " ++ toString i ++ ": " ++ cause ++ "\n")

/-- Reports a failure in its context. A remark on the error goes to the end of each cause. -/
def failed (context : String) (error : Error) (remark : String) : Outcome :=
  ⟨1, "",
    "Error: " ++ context ++ "\n\nCaused by:\n"
      ++ causes ((error.message :: error.source?.toList).map (· ++ remark))⟩

/-- The program panics; what it has printed before stays. -/
def panicked (output : String) : Outcome := ⟨101, output, ""⟩

end Outcome

namespace Command

/-- Lines one after the other, as they are printed. -/
def printedLines (lines : List String) : String := String.join (lines.map (· ++ "\n"))

/-! ## Remarks -/

/--
What the reader of documents says about a failure to read the text of a file, behind the message:
its words for a fault, and the line and the column.
-/
abbrev Remarks := ByteArray → Failure → String

/-- The remark on an error, if there is a text that it is about. -/
def Remarks.on (remarks : Remarks) (file : Except FileError ByteArray) (error : Error) : String :=
  match file, error with
  | .ok bytes, .unreadable failure => remarks bytes failure
  | _, _ => ""

/-! ## Run -/

/-- The pooled output of the fixture in a file. -/
def pooled (file : Except FileError ByteArray) : Except Stop Tensor := do
  (← (Fixture.ofFile file).mapError .failed).run

/-- Runs a fixture and prints or writes the pooled output. -/
def runFixture {m : Type → Type} [Monad m] (disk : Disk m) (remarks : Remarks) (fixture : String)
    (output : Option String) : m Outcome := do
  let context := "failed to run fixture " ++ fixture
  let file ← disk.read fixture
  match pooled file, output with
  | .error .capacityOverflow, _ => return .panicked ""
  | .error (.failed error), _ => return .failed context error (remarks.on file error)
  | .ok t, none => return .printed (t.written.page ++ "\n")
  | .ok t, some path =>
    match ← disk.write path t.written.page with
    | .error error => return .failed context (.file error) ""
    | .ok () =>
      return .printed ("Output " ++ t.shape.text ++ " written to " ++ path ++ "\n")

/-! ## Verify -/

/-- The report on the fixture in a file. -/
def report (file : Except FileError ByteArray) : Except Stop Report := do
  (← (Fixture.ofFile file).mapError .failed).verify

/-- Whether a fixture with this report passes. -/
def passes : Except Error Report → Bool
  | .ok r => r.passed
  | .error _ => false

/-- The line on the file at a path, with a remark if there is an error. -/
def reportLine (path : String) (remark : Error → String) : Except Error Report → String
  | .ok r =>
    let difference := r.name ++ " (" ++ path ++ ") max diff " ++ Layout.renderRounded 3 r.maxAbsDiff
    if r.passed then "PASS " ++ difference
    else "FAIL " ++ difference ++ " > tolerance " ++ Layout.renderRounded 3 r.tolerance
  | .error error => "ERROR " ++ path ++ " [" ++ error.code ++ "] " ++ error.message ++ remark error

/-- What is kept of one verified fixture: the line that is printed, and whether it passes. -/
structure Record where
  line : String
  passes : Bool

/-- The record on the file at a path; there is none where the program panics. -/
def record? (remarks : Remarks) (path : String) (file : Except FileError ByteArray) :
    Option Record :=
  (Stop.returned? (report file)).map fun r => ⟨reportLine path (remarks.on file) r, passes r⟩

/-- The line between the records and the last one. -/
def ruler : String := String.ofList (List.replicate 60 '-')

/-- The last line. -/
def tally (passed failed : Nat) : String :=
  toString passed ++ " passed, " ++ toString failed ++ " failed"

/-- The printed records, the ruler and the tally; the program fails if a fixture does not pass. -/
def summary (records : List Record) : Outcome :=
  let failed := records.countP (!·.passes)
  { exitCode := if failed = 0 then 0 else 1
    output := printedLines
      (records.map Record.line ++ [ruler, tally (records.length - failed) failed])
    errors := "" }

/-- Verifies fixtures one after the other, with the records of those before. -/
def verifyRest {m : Type → Type} [Monad m] (disk : Disk m) (remarks : Remarks)
    (done : List Record) : List String → m Outcome
  | [] => return summary done
  | path :: rest => do
    match record? remarks path (← disk.read path) with
    | none => return .panicked (printedLines (done.map Record.line))
    | some record => verifyRest disk remarks (done ++ [record]) rest

def verifyFixtures {m : Type → Type} [Monad m] (disk : Disk m) (remarks : Remarks)
    (paths : List String) : m Outcome :=
  verifyRest disk remarks [] paths

/-! ## Shape -/

/-- Prints the shape of the output. -/
def printShape (input regions : Shape) (outputHeight outputWidth : UInt32) : Outcome :=
  let prepared := do
    (← Operation.ofParams (.ofGrid outputHeight outputWidth)).prepare input regions
  match prepared with
  | .ok s => .printed (s.text ++ "\n")
  | .error error => .failed "failed to infer output shape" error ""

/-! ## Command lines -/

/-- Does what a command asks for. -/
def execute {m : Type → Type} [Monad m] (disk : Disk m) (remarks : Remarks) : Command → m Outcome
  | run fixture output => runFixture disk remarks fixture output
  | verify fixtures => verifyFixtures disk remarks fixtures
  | shape input regions outputHeight outputWidth =>
    return printShape input regions outputHeight outputWidth

/-- The name and the version of the program. -/
def version : String := "roialign 0.1.0"

/-- How the program is used. -/
def usage : String := String.join ([
  "ROI-Align pooling kernel for NHWC float feature maps",
  "",
  "Usage: roialign [OPTIONS] <COMMAND>",
  "",
  "Commands:",
  "  run     Run a fixture and print the pooled output",
  "  verify  Verify fixtures against their expected outputs",
  "  shape   Print the output shape for the given input and ROI shapes",
  "  help    Print this message or the help of the given subcommand(s)",
  "",
  "Options:",
  "  -v, --verbose...  Increase log verbosity (-v debug, -vv trace)",
  "  -h, --help        Print help",
  "  -V, --version     Print version"].map (· ++ "\n"))

/-- What the program does where a command line selects no command. -/
def refuse : UsageError → Outcome
  | .displayHelp => .printed usage
  | .displayVersion => .printed (version ++ "\n")
  | _ => ⟨2, "", usage⟩

/-- Does what a command line asks for. -/
def respond {m : Type → Type} [Monad m] (disk : Disk m) (remarks : Remarks)
    (arguments : List String) : m Outcome :=
  match Arguments.parse arguments with
  | .error error => return refuse error
  | .ok arguments => arguments.command.execute disk remarks

/-! ## Logging -/

/-- The log filter where neither the environment nor the verbosity sets one. -/
def defaultFilter : String := "info"

/-- The log filter: the one of the environment unless it is blank, else by the verbosity. -/
def logFilter (verbosity : Nat) (environment : Option String) : String :=
  let set := Text.trim (environment.getD "").toList
  if set ≠ [] then String.ofList set
  else
    match verbosity with
    | 0 => defaultFilter
    | 1 => "debug"
    | _ => "trace"

end Command

end RegionPooling
