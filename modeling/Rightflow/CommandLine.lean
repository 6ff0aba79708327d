import Rightflow.Diagnostic
import Rightflow.Session

/-!
# The command line

The program to run is given as a text or in a file.  Its output goes to the standard output; the
warnings about it, unless they are not wanted, and the error that ends it go to the standard error,
each with an excerpt of the source.  The exit code is the result of the program, and one if there is
none.
-/

namespace Rightflow.CommandLine

/-! ## Arguments -/

/-- What the arguments ask for. -/
structure Options where
  /-- Whether `contents` is the path of a file. -/
  file : Bool := false
  quiet : Bool := false
  contents? : Option String := none
deriving DecidableEq, Repr

/-- Single letters behind one dash. -/
def Options.letters? (o : Options) : List Char → Option Options
  | [] => some o
  | 'f' :: rest => { o with file := true }.letters? rest
  | 'q' :: rest => { o with quiet := true }.letters? rest
  | _ => none

/-- Takes the argument that is no option, of which there is one. -/
def Options.withContents? (o : Options) (contents : String) : Option Options :=
  match o.contents? with
  | none => some { o with contents? := some contents }
  | some _ => none

/-- What arguments ask for on top of `o`.  Behind `--`, nothing is an option. -/
def Options.ofArgs? (o : Options) : List String → Option Options
  | [] => some o
  | "--" :: rest => rest.foldlM withContents? o
  | "--file" :: rest => { o with file := true }.ofArgs? rest
  | "--quiet" :: rest => { o with quiet := true }.ofArgs? rest
  | arg :: rest => do
    let o ← match arg.toList with
      | '-' :: c :: letters => o.letters? (c :: letters)
      | _ => o.withContents? arg
    o.ofArgs? rest

/-! ## Running -/

/-- What a run leaves behind. -/
structure Report where
  exit : UInt8
  stdout : String := ""
  stderr : String := ""
deriving DecidableEq, Repr

/-- Text for the standard error, each line or excerpt ended by a line feed. -/
def errorLines (texts : List String) : String := String.join (texts.map (· ++ "\n"))

/-- An error with the excerpt that it is about. -/
def showError (source : String) (e : Error) : String :=
  match e.position? with
  | some p => Diagnostic.render e.message p (some source)
  | none => e.message

/-- The end of a computation as it is shown. -/
def showHalt (source : String) : Halt Error → String
  | .fault e => showError source e
  | .exhausted => "Error: The evaluation is too deep."

def showWarning (source : String) (w : Warning) : String :=
  Diagnostic.render w.message w.position (some source)

/-- The exit code of a result: the result within 32 bits, of which eight are seen outside. -/
def exitCode (n : Int64) : UInt8 :=
  .ofInt (max Int32.minValue.toInt (min n.toInt Int32.maxValue.toInt))

/-- Runs the program that a text is. -/
def runSource [Host] (quiet : Bool) (source : String) : Report :=
  match parseProgram source with
  | .error halt => { exit := 1, stderr := errorLines [showHalt source halt] }
  | .ok (program, warnings) =>
    let cautions := if quiet then [] else warnings.map (showWarning source)
    match Machine.standard.perform (Action.run bound program) with
    | (.ok n, m) =>
      { exit := exitCode n, stdout := m.sink.written, stderr := errorLines cautions }
    | (.error halt, m) =>
      { exit := 1, stdout := m.sink.written,
        stderr := errorLines (cautions ++ [showHalt source halt]) }

/-- Why a file has no text. -/
inductive Unreadable where
  | missing
  | directory
  | forbidden
  | notText
deriving DecidableEq, Repr

def Unreadable.text : Unreadable → String
  | .missing => "No such file or directory (os error 2)"
  | .directory => "Is a directory (os error 21)"
  | .forbidden => "Permission denied (os error 13)"
  | .notText => "stream did not contain valid UTF-8"

/-- The report on a file that cannot be read. -/
def unreadable (path : String) (reason : Unreadable) : Report :=
  { exit := 1,
    stderr := errorLines ["Failed to read the input file '" ++ path ++ "': " ++ reason.text] }

end Rightflow.CommandLine
