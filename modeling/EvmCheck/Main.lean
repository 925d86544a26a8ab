import EvmCheck.Program

/-!
# The command line program

Reads the fixture, if the arguments ask for one, runs `Program.execute`, and
prints what it gives: the output to the standard output, the log records and
the message about a failure to the standard error.
-/

namespace EvmCheck

/-- The contents of a file, if it can be read. -/
def contents? (path : String) : IO (Option ByteArray) := do
  try
    return some (← IO.FS.readBinFile path)
  catch _ =>
    return none

/-- The contents of the file that the arguments ask for. -/
def fixtureContents? (args : List String) : IO (Option ByteArray) :=
  match Arguments.parse args with
  | .ok args =>
      match Program.fileToRead? args with
      | some path => contents? path
      | none => return none
  | .error _ => return none

end EvmCheck

open EvmCheck in
/-- Runs the program on the arguments of the process. -/
def main (args : List String) : IO UInt32 := do
  let contents ← fixtureContents? args
  let ending := Program.execute (fun _ => contents) args
  for event in ending.events do
    IO.eprintln ("[" ++ event.level.name ++ "] " ++ event.message)
  IO.print ending.output
  if ending.status = 1 then
    IO.eprintln ending.message
  if ending.status = 2 then
    IO.eprintln "Usage: evm-validate [OPTIONS] [FIXTURE]"
  return UInt32.ofNat ending.status
