import EvmCheck.Arguments
import EvmCheck.Fixture
import EvmCheck.Hex
import EvmCheck.Listing
import EvmCheck.Survey

/-!
# Runs of the program

A run either validates the codes on the command line or goes through the cases
of a fixture.  Both stop at the first failure, and a `Transcript` holds what was
printed and logged up to there.  Files are read through a function from names to
contents, so that a run is a function of the arguments and the files.
-/

namespace EvmCheck
namespace Program

/-- Why a run fails. -/
inductive Failure
  /-- More verbosity was asked for than there are levels. -/
  | verbosity
  /-- A text is not code in hexadecimal. -/
  | hex (text : String) (fault : Hex.Fault)
  /-- A fixture cannot be read as text. -/
  | unreadable (path : String)
  /-- A fixture is not a list of cases. -/
  | unparsable (path : String)
  /-- A case did not come out as expected. -/
  | unexpectedOutcome
  deriving DecidableEq

/-- The failure in words.  For a fixture these are the words up to the name of the
file; a colon and the words of the file system, or of the reader of JSON, about the
cause are left out. -/
def Failure.message : Failure → String
  | verbosity => "Don't be crazy with verbose"
  | hex text fault => fault.message text
  | unreadable path => "unable to read " ++ path
  | unparsable path => "unable to parse " ++ path
  | unexpectedOutcome => "Test failed"

/-- What a run leaves behind. -/
structure Transcript where
  /-- The text printed. -/
  output : String
  /-- The events logged, in order. -/
  events : List Event
  /-- The failure that ended the run, if one did. -/
  failure : Option Failure

namespace Transcript

/-- Prints lines. -/
def printing (lines : List String) : Transcript where
  output := Text.lines lines
  events := []
  failure := none

/-- Fails without printing. -/
def failing (failure : Failure) : Transcript where
  output := ""
  events := []
  failure := some failure

/-- Logs the events of a validation. -/
def logging (v : Validation) : Transcript where
  output := ""
  events := v.events.toList
  failure := none

/-- One transcript after another; nothing comes after a failure. -/
def andThen (t next : Transcript) : Transcript :=
  match t.failure with
  | some _ => t
  | none =>
      { output := t.output ++ next.output
        events := t.events ++ next.events
        failure := next.failure }

end Transcript

open Transcript

/-- Validates codes in hexadecimal and prints a line for each. -/
def reportCodes : List String → Transcript
  | [] => printing []
  | text :: rest =>
      match Hex.decode text with
      | .error fault => failing (.hex text fault)
      | .ok code =>
          let v := code.validateLogged
          ((logging v).andThen
            (printing [code.digest.text ++ ": " ++ v.outcome.describe])).andThen
            (reportCodes rest)

/-- The line before a case; cases are counted from one. -/
def header (index total : Nat) (c : Case) : String :=
  "Test " ++ Text.decimal (index + 1) ++ " of " ++ Text.decimal total ++ ": " ++
    c.name

/-- What is printed about a case that did not come out as expected. -/
def report (index total : Nat) (c : Case) (code : Code) (outcome : Outcome) :
    List String :=
  ["Code hash: " ++ code.digest.text,
    "Instructions: ",
    c.assembly.getD code.disassemble,
    "",
    "Expected valid: " ++ Text.boolean c.expected.valid] ++
  (c.expected.error.toList.map fun kind => "Expected error: " ++ kind) ++
  (c.expected.jumpdests.toList.map fun ps =>
    "Expected jumpdests: " ++ Text.positions ps) ++
  ["Actual: " ++ outcome.describe, ""] ++
  (c.hint.toList.flatMap fun hint => ["", "Hint: " ++ hint, ""]) ++
  ["Progress: " ++ Text.decimal index ++ "/" ++ Text.decimal total, "", ""]

/-- Checks one case. -/
def checkCase (index total : Nat) (c : Case) : Transcript :=
  (printing [header index total c]).andThen <|
    match Hex.decode c.code with
    | .error fault => failing (.hex c.code fault)
    | .ok code =>
        let v := code.validateLogged
        (logging v).andThen <|
          if c.expected.isMetBy v.outcome then printing ["PASS"]
          else
            (printing (report index total c code v.outcome)).andThen
              (failing .unexpectedOutcome)

/-- Checks cases, the first of which has the given index. -/
def checkCasesFrom (index total : Nat) : List Case → Transcript
  | [] => printing ["All " ++ Text.decimal total ++ " cases passed"]
  | c :: rest =>
      (checkCase index total c).andThen (checkCasesFrom (index + 1) total rest)

/-- Checks all cases of a fixture. -/
def checkCases (cases : List Case) : Transcript :=
  checkCasesFrom 0 cases.length cases

/-- The fixture that is run when none is named. -/
def defaultFixture : String := "./validate.json"

/-- Checks the cases of the fixture with the given name. -/
def checkFixture (read : String → Option ByteArray) (path : String) : Transcript :=
  match (read path).bind String.fromUTF8? with
  | none => failing (.unreadable path)
  | some text =>
      match Case.ofText? text with
      | none => failing (.unparsable path)
      | some cases => checkCases cases

/-- The name of the file that a run reads, if it reads one. -/
def fileToRead? (args : Arguments) : Option String :=
  if args.codes.isEmpty then some (args.fixture.getD defaultFixture) else none

/-- The run that arguments ask for, with all its events. -/
def work (read : String → Option ByteArray) (args : Arguments) : Transcript :=
  match fileToRead? args with
  | some path => checkFixture read path
  | none => reportCodes args.codes

/-- The run that arguments ask for, with the events that their verbosity
shows. -/
def run (read : String → Option ByteArray) (args : Arguments) : Transcript :=
  match Level.ofVerbosity? args.verbosity with
  | none => failing .verbosity
  | some limit =>
      let t := work read args
      { t with events := shown limit (.configured limit :: t.events) }

/-- How the program ends. -/
structure Ending where
  /-- The exit status: 0 for success, 1 for failure, 2 for arguments that
  cannot be followed. -/
  status : Nat
  /-- The text printed. -/
  output : String
  /-- The message about a failure. -/
  message : String
  /-- The log records shown. -/
  events : List Event

/-- The whole program as a function of its arguments and the files. -/
def execute (read : String → Option ByteArray) (args : List String) : Ending :=
  match Arguments.parse args with
  | .error .helpRequested =>
      { status := 0, output := Arguments.help, message := "", events := [] }
  | .error _ => { status := 2, output := "", message := "", events := [] }
  | .ok args =>
      let t := run read args
      { status := if t.failure.isSome then 1 else 0
        output := t.output
        message := (t.failure.map Failure.message).getD ""
        events := t.events }

end Program
end EvmCheck
