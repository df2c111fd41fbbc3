import CustomIsa.Command.Run
/-! # The command-line program

Reads the files that the command line names, runs the command, and prints what it says. -/
namespace CustomIsa

/-- The fault behind an error of the operating system. -/
def readFault (e : IO.Error) : FileFault :=
  let known :=
    match e with
    | .noFileOrDirectory _ number _ | .permissionDenied _ number _
    | .inappropriateType _ number _ | .invalidArgument _ number _ =>
      FileFault.ofNumber? number.toNat
    | _ => none
  known.getD (.other (toString e))

/-- Reads a file. -/
def readText (path : String) : IO (Except FileFault String) := do
  match ← (IO.FS.readFile path).toBaseIO with
  | .ok text => pure (.ok text)
  | .error e => pure (.error (readFault e))

end CustomIsa

open CustomIsa in
/-- Runs the command line. -/
def main (arguments : List String) : IO UInt32 := do
  let paths := (Command.Invocation.ofArguments? arguments).elim [] Command.Invocation.files
  let contents ← paths.mapM fun path => do pure (path, ← readText path)
  let files : Command.Files := fun path =>
    (contents.lookup path).getD (.error .missing)
  let outcome := Command.run files arguments
  for line in outcome.err do
    IO.eprintln line
  for line in outcome.out do
    IO.println line
  if outcome.exit = 2 then
    IO.eprintln "usage: [--config FILE] [--spec FILE]... check|asm|disasm|match ARGUMENT..."
  pure (UInt32.ofNat outcome.exit)
