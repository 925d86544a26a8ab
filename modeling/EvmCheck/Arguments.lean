import EvmCheck.Text

/-!
# Command line arguments

The program takes flags for verbosity and help, any number of codes, and one
file name.  Arguments are read from left to right, and the first problem ends
the reading.

Two faults are noticed late: a `--code` that still has no value, and a file name
that is empty.  Both come to light when the next known option is read, when a
file name is read, or at the end of the arguments (`settle`).  After `--` every
argument is a file name.
-/

namespace EvmCheck

/-- What the command line asks for. -/
structure Arguments where
  /-- How often more logging was asked for; the count stops at 255. -/
  verbosity : Nat := 0
  /-- The codes to validate, in order. -/
  codes : List String := []
  /-- The fixture to run. -/
  fixture : Option String := none
  deriving DecidableEq

namespace Arguments

/-- Why the arguments are not followed. -/
inductive Problem
  /-- The help text was asked for. -/
  | helpRequested
  /-- An option has no value, or a file name is empty. -/
  | invalidValue
  /-- An option is not known, or there is more than one file name. -/
  | unknownArgument
  /-- A flag was given a value. -/
  | tooManyValues
  deriving DecidableEq

/-- The form of an argument. -/
inductive Form
  /-- Two dashes alone. -/
  | separator
  /-- Two dashes, a name, and perhaps a value after an equals sign. -/
  | long (name : String) (value : Option String)
  /-- One dash and letters. -/
  | short (letters : List Char)
  /-- Anything else; a dash alone is included. -/
  | plain
  deriving DecidableEq

/-- The text after the first equals sign, if there is one. -/
def valuePart (cs : List Char) : Option String :=
  match cs.dropWhile (fun c => c ≠ '=') with
  | [] => none
  | _ :: value => some (String.ofList value)

/-- The text before the first equals sign. -/
def namePart (cs : List Char) : String :=
  String.ofList (cs.takeWhile (fun c => c ≠ '='))

/-- The form of an argument. -/
def form (arg : String) : Form :=
  match arg.toList with
  | ['-', '-'] => .separator
  | '-' :: '-' :: rest => .long (namePart rest) (valuePart rest)
  | ['-'] => .plain
  | '-' :: letters => .short letters
  | _ => .plain

/-- What has been read of the arguments. -/
structure Reading where
  /-- What has been asked for so far. -/
  arguments : Arguments := {}
  /-- Whether the next argument is the value of `--code`. -/
  awaitingCode : Bool := false
  /-- Whether all further arguments are file names. -/
  namesOnly : Bool := false

namespace Reading

/-- Notices a missing value and an empty file name. -/
def settle (r : Reading) : Except Problem Reading :=
  if r.awaitingCode ∨ r.arguments.fixture = some "" then .error .invalidValue
  else .ok r

/-- Counts a wish for more logging. -/
def louder (r : Reading) : Reading :=
  { r with
    arguments :=
      { r.arguments with verbosity := min 255 (r.arguments.verbosity + 1) } }

/-- Adds a code. -/
def addCode (r : Reading) (code : String) : Reading :=
  { r with
    arguments := { r.arguments with codes := r.arguments.codes ++ [code] }
    awaitingCode := false }

/-- Reads a file name. -/
def fileName (r : Reading) (name : String) : Except Problem Reading :=
  if r.arguments.fixture.isSome then .error .unknownArgument
  else
    match r.settle with
    | .error problem => .error problem
    | .ok r =>
        .ok { r with arguments := { r.arguments with fixture := some name } }

/-- Reads the flag for more logging. -/
def verboseFlag (r : Reading) : Except Problem Reading :=
  r.settle.map louder

/-- Reads the flag for help. -/
def helpFlag (r : Reading) : Except Problem Reading :=
  match r.settle with
  | .error problem => .error problem
  | .ok _ => .error .helpRequested

/-- Reads one letter of a group of flags. -/
def letter (r : Reading) : Char → Except Problem Reading
  | 'v' => r.verboseFlag
  | 'h' => r.helpFlag
  | _ => .error .unknownArgument

/-- Reads an option with a name. -/
def option (r : Reading) (name : String) (value : Option String) :
    Except Problem Reading :=
  if name = "code" then
    match value with
    | some code => r.settle.map (addCode · code)
    | none => r.settle.map (fun r => { r with awaitingCode := true })
  else if name = "verbose" ∨ name = "help" then
    if value.isSome then .error .tooManyValues
    else if name = "verbose" then r.verboseFlag
    else r.helpFlag
  else .error .unknownArgument

/-- Reads one argument. -/
def read (r : Reading) (arg : String) : Except Problem Reading :=
  if r.namesOnly then r.fileName arg
  else
    match form arg with
    | .separator => .ok { r with namesOnly := true }
    | .long name value => r.option name value
    | .short letters => letters.foldlM letter r
    | .plain => if r.awaitingCode then .ok (r.addCode arg) else r.fileName arg

end Reading

/-- Reads all arguments. -/
def parse (args : List String) : Except Problem Arguments :=
  match args.foldlM Reading.read {} with
  | .error problem => .error problem
  | .ok r => r.settle.map (·.arguments)

/-- The help text. -/
def help : String :=
  Text.lines
    ["Static validator for EVM code",
      "",
      "Usage: evm-validate [OPTIONS] [FIXTURE]",
      "",
      "Arguments:",
      "  [FIXTURE]  JSON file of validation cases",
      "",
      "Options:",
      "  -v, --verbose...  Turn on verbose logging",
      "      --code <HEX>  Hex encoded code to validate instead of running a fixture file",
      "  -h, --help        Print help"]

end Arguments
end EvmCheck
