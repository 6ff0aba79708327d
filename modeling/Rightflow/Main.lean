import Rightflow.CommandLine

/-!
# The program

Reads the arguments and the file that they may name, and hands on what a run leaves behind.
-/

namespace Rightflow.CommandLine

/-- The reason why a file could not be read. -/
def Unreadable.ofError : IO.Error → Unreadable
  | .noFileOrDirectory .. => .missing
  | .inappropriateType .. => .directory
  | .permissionDenied .. => .forbidden
  | _ => .notText

/-- The report on what the arguments ask for. -/
def report (options : Options) (contents : String) : IO Report := do
  if options.file then
    match ← (IO.FS.readFile contents).toBaseIO with
    | .ok source => return runSource options.quiet source
    | .error e => return unreadable contents (.ofError e)
  else return runSource options.quiet contents

end Rightflow.CommandLine

/-- Runs the program that the arguments give. -/
def main (args : List String) : IO UInt32 := do
  match Rightflow.CommandLine.Options.ofArgs? {} args with
  | some { file, quiet, contents? := some contents } =>
    let report ← Rightflow.CommandLine.report { file, quiet } contents
    IO.print report.stdout
    IO.eprint report.stderr
    return report.exit.toUInt32
  | _ =>
    IO.eprintln "Usage: rightflow [--file] [--quiet] CONTENTS"
    return 2
