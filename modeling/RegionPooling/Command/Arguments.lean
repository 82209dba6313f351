import RegionPooling.Shape

/-!
# Command-line arguments

The arguments select one of three commands and its settings. A setting takes its value from
the same argument or from the next one; a flag takes none. Everything after `--` is taken
literally. `Arguments.parse` reads a whole command line, from left to right, and the first
thing wrong with it is the `UsageError`.

A value in an argument of its own is read only when the next option, the next place or the
end is reached; until then it is `Pending`. So an unknown option is reported before a bad
value in front of it, unless that value was attached to its setting.
-/

namespace RegionPooling

/-- Why a command line selects no command; help and version are requests of this kind. -/
inductive UsageError where
  | unknownArgument
  | valueValidation
  | invalidValue
  | missingRequiredArgument
  | argumentConflict
  | invalidSubcommand
  | missingSubcommand
  | tooManyValues
  | displayHelp
  | displayVersion
  | displayHelpOnMissingArgument
  deriving DecidableEq

/-- What the program is asked to do. -/
inductive Command where
  /-- Run a fixture and print its output, or write it to a file. -/
  | run (fixture : String) (output : Option String)
  /-- Verify fixtures against their expected outputs. -/
  | verify (fixtures : List String)
  /-- Print the shape of the output for the shapes of the input and of the records. -/
  | shape (input regions : Shape) (outputHeight outputWidth : UInt32)
  deriving DecidableEq

/-- A command line that selects a command. -/
structure Arguments where
  verbosity : Nat
  command : Command
  deriving DecidableEq

namespace Arguments

/-! ## Options -/

/-- Options without a value. -/
inductive Flag where
  | help
  | version
  | verbose
  deriving DecidableEq

/-- Options with a value. -/
inductive Setting where
  | output
  | input
  | rois
  | outHeight
  | outWidth
  deriving DecidableEq

/-- An option of either kind. -/
inductive Choice where
  | flag (flag : Flag)
  | setting (setting : Setting)
  deriving DecidableEq

/-- How many places without an option a command has. -/
inductive Places where
  | none
  | one
  | many
  deriving DecidableEq

/-- The names of the options of a command, and its places. -/
structure Grammar where
  long : List (String × Choice)
  short : List (Char × Choice)
  places : Places

/-- The options of every command. -/
def commonLong : List (String × Choice) := [("help", .flag .help), ("verbose", .flag .verbose)]

def commonShort : List (Char × Choice) := [('h', .flag .help), ('v', .flag .verbose)]

/-- The options in front of a command. -/
def front : Grammar where
  long := ("version", .flag .version) :: commonLong
  short := ('V', .flag .version) :: commonShort
  places := .none

def runGrammar : Grammar where
  long := ("output", .setting .output) :: commonLong
  short := ('o', .setting .output) :: commonShort
  places := .one

def verifyGrammar : Grammar where
  long := commonLong
  short := commonShort
  places := .many

def shapeGrammar : Grammar where
  long := [("input", .setting .input), ("rois", .setting .rois),
    ("out-height", .setting .outHeight), ("out-width", .setting .outWidth)] ++ commonLong
  short := commonShort
  places := .none

/-! ## Values -/

/-- The values gathered so far. -/
structure Draft where
  verbosity : Nat
  paths : List String
  output : Option String
  input : Option Shape
  regions : Option Shape
  outputHeight : Option UInt32
  outputWidth : Option UInt32

def Draft.empty : Draft := ⟨0, [], none, none, none, none, none⟩

/-- A value that is not read yet. -/
inductive Pending where
  | none
  | setting (setting : Setting) (text : Option String)
  | paths (texts : List String)

/-- The highest verbosity. -/
def verbosityLimit : Nat := 255

/-- A path is not empty. -/
def readPath (text : String) : Except UsageError String :=
  if text = "" then .error .invalidValue else .ok text

def readShape (text : String) : Except UsageError Shape :=
  (Shape.parse text).mapError fun _ => .valueValidation

/-- A size, written as a whole number. -/
def readSize (text : String) : Except UsageError UInt32 :=
  match Text.readWithin 0xFFFFFFFF text.toList with
  | some n => .ok (UInt32.ofNat n)
  | none => .error .valueValidation

/-- The value of a setting that may be given once. -/
def once {α : Type} (old : Option α) (read : String → Except UsageError α) (text : String) :
    Except UsageError (Option α) :=
  match old with
  | some _ => .error .argumentConflict
  | none => (read text).map some

namespace Draft

/-- Reads the value of a setting. -/
def assign (d : Draft) (setting : Setting) (text : String) : Except UsageError Draft :=
  match setting with
  | .output => (once d.output readPath text).map fun v => { d with output := v }
  | .input => (once d.input readShape text).map fun v => { d with input := v }
  | .rois => (once d.regions readShape text).map fun v => { d with regions := v }
  | .outHeight => (once d.outputHeight readSize text).map fun v => { d with outputHeight := v }
  | .outWidth => (once d.outputWidth readSize text).map fun v => { d with outputWidth := v }

/-- Reads the pending value. -/
def settle (d : Draft) : Pending → Except UsageError Draft
  | .none => .ok d
  | .setting _ none => .error .invalidValue
  | .setting setting (some text) => d.assign setting text
  | .paths texts => (texts.mapM readPath).map fun paths => { d with paths := d.paths ++ paths }

/-- Follows a flag. -/
def raise (d : Draft) : Flag → Except UsageError Draft
  | .help => .error .displayHelp
  | .version => .error .displayVersion
  | .verbose => .ok { d with verbosity := min verbosityLimit (d.verbosity + 1) }

end Draft

/-! ## Single arguments -/

/-- The form of an argument. -/
inductive Form where
  | plain
  /-- The end of the options. -/
  | separator
  | long (name : String) (value : Option String)
  | short (letters : List Char)

/-- Splits at the first equals sign. -/
def splitEquals (text : List Char) : String × Option String :=
  let name := text.takeWhile (· != '=')
  match text.drop name.length with
  | [] => (String.ofList name, none)
  | _ :: value => (String.ofList name, some (String.ofList value))

/-- A single dash is no option. -/
def Form.of (argument : String) : Form :=
  match argument.toList with
  | ['-', '-'] => .separator
  | '-' :: '-' :: rest =>
    let (name, value) := splitEquals rest
    .long name value
  | '-' :: c :: rest => .short (c :: rest)
  | _ => .plain

/-- A group of short options, the last of which may be a setting with its value attached. -/
def readShort (g : Grammar) (d : Draft) (pending : Pending) :
    List Char → Except UsageError (Draft × Pending)
  | [] => .ok (d, pending)
  | c :: rest =>
    match g.short.lookup c with
    | none => .error .unknownArgument
    | some (.flag flag) => do
      let d ← (← d.settle pending).raise flag
      readShort g d .none rest
    | some (.setting setting) => do
      let d ← d.settle pending
      match rest with
      | [] => return (d, .setting setting none)
      | '=' :: value => return (← d.assign setting (String.ofList value), .none)
      | value => return (← d.assign setting (String.ofList value), .none)

/-- A long option. -/
def readLong (g : Grammar) (d : Draft) (pending : Pending) (name : String)
    (value : Option String) : Except UsageError (Draft × Pending) :=
  match g.long.lookup name, value with
  | none, _ => .error .unknownArgument
  | some (.flag _), some _ => .error .tooManyValues
  | some (.flag flag), none => do
    return (← (← d.settle pending).raise flag, .none)
  | some (.setting setting), some text => do
    return (← (← d.settle pending).assign setting text, .none)
  | some (.setting setting), none => do
    return (← d.settle pending, .setting setting none)

/-- An argument at a place. -/
def readPlace (g : Grammar) (d : Draft) (pending : Pending) (argument : String) :
    Except UsageError (Draft × Pending) :=
  match g.places, pending with
  | .none, _ => .error .unknownArgument
  | .one, .paths _ => .error .unknownArgument
  | .one, pending =>
    if d.paths = [] then do return (← d.settle pending, .paths [argument])
    else .error .unknownArgument
  | .many, .paths texts => .ok (d, .paths (texts ++ [argument]))
  | .many, pending => do return (← d.settle pending, .paths [argument])

/-! ## Whole command lines -/

/-- The arguments of a command; `literal` holds after the separator. -/
def readAll (g : Grammar) (literal : Bool) (d : Draft) (pending : Pending) :
    List String → Except UsageError Draft
  | [] => d.settle pending
  | argument :: rest =>
    match literal, Form.of argument, pending with
    | false, .separator, pending => readAll g true d pending rest
    | false, .long name value, pending => do
      let (d, pending) ← readLong g d pending name value
      readAll g false d pending rest
    | false, .short letters, pending => do
      let (d, pending) ← readShort g d pending letters
      readAll g false d pending rest
    -- The value of the setting just in front of it.
    | false, .plain, .setting setting none =>
      readAll g false d (.setting setting (some argument)) rest
    | literal, _, pending => do
      let (d, pending) ← readPlace g d pending argument
      readAll g literal d pending rest

/-- Something that has to be given. -/
def needed {α : Type} : Option α → Except UsageError α
  | some value => .ok value
  | none => .error .missingRequiredArgument

/-- A command by its name: its options, and how its values make it up. -/
def command? : String → Option (Grammar × (Draft → Except UsageError Command))
  | "run" => some (runGrammar, fun d => do return .run (← needed d.paths.head?) d.output)
  | "verify" => some (verifyGrammar, fun d =>
      if d.paths = [] then .error .missingRequiredArgument else .ok (.verify d.paths))
  | "shape" => some (shapeGrammar, fun d => do
      return .shape (← needed d.input) (← needed d.regions) (← needed d.outputHeight)
        (← needed d.outputWidth))
  | _ => none

/-- The word that asks for help on a command. -/
def helpWord : String := "help"

/-- A request for help, on the program, on one command, or on help itself. -/
def readHelp : List String → UsageError
  | [] => .displayHelp
  | [name] =>
    if name = helpWord ∨ (command? name).isSome then .displayHelp else .invalidSubcommand
  | _ => .invalidSubcommand

/-- The options in front of a command, and the command. -/
def readFront (literal : Bool) (d : Draft) : List String → Except UsageError Arguments
  | [] =>
    .error (if d.verbosity = 0 then .displayHelpOnMissingArgument else .missingSubcommand)
  | argument :: rest =>
    if literal then
      -- A command behind the separator is known, but has no place there.
      .error (if argument = helpWord ∨ (command? argument).isSome then .unknownArgument
        else .invalidSubcommand)
    else if argument = helpWord then .error (readHelp rest)
    else
      match command? argument with
      | some (grammar, finish) => do
        let values ← readAll grammar false .empty .none rest
        let command ← finish values
        -- What is given behind the command replaces what is given in front of it.
        let verbosity := if values.verbosity = 0 then d.verbosity else values.verbosity
        return { verbosity, command }
      | none =>
        match Form.of argument with
        | .separator => readFront true d rest
        | .long name value => do
          let (d, _) ← readLong front d .none name value
          readFront false d rest
        | .short letters => do
          let (d, _) ← readShort front d .none letters
          readFront false d rest
        | .plain => .error .invalidSubcommand

/-- Reads the arguments of the program, without its name. -/
def parse (arguments : List String) : Except UsageError Arguments :=
  readFront false .empty arguments

end Arguments

end RegionPooling
