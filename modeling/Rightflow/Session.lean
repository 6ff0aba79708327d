import Rightflow.Evaluation
import Rightflow.Source

/-!
# Sessions

A session is a machine on which programs are loaded and run, and on which statements, expressions
and single operations act in the outermost frame.  Every action leaves a machine on which the
session can go on.
-/

namespace Rightflow

/-- A machine with the native functions that every program has. -/
def Machine.standard : Machine := .ofBuiltins Builtin.standard

namespace Action

/-! ## Programs -/

/-- Adds a function to those that may be called. -/
def define (f : Function) : Action Unit := do
  match (← get).functions.find? f.name with
  | some (.builtin ..) => fail f.position (.builtinRedefined f.name)
  | some _ => fail f.position (.alreadyDefined f.name)
  | none => modify fun m => { m with functions := m.functions.insert f.name (.function f) }

/-- Adds the functions of a program, up to the first one that cannot be added. -/
def load : Program → Action Unit
  | [] => return ()
  | f :: rest => do
    define f
    load rest

/-- The function that a program begins with. -/
def mainFunction : Action Function := do
  match (← get).functions.find? "main" with
  | some (.function f) => return f
  | _ => throw (.fault .missingMain)

/-- Hands on all that has been written. -/
def flush (p : Position) : Action Unit := do
  if (← get).sink.flushFails then fail p (.output .flush)

/-- The exit code that a value is. -/
def asCode (v : Value) (p : Position) : Action Int64 :=
  match v with
  | .int n => return n
  | v => fail p (.mainResult v.kind)

/-- Loads a program and calls its main function. -/
def run [Host] (n : Nat) (program : Program) : Action Int64 := do
  load program
  let f ← mainFunction
  let v ← call n (.function f) [] f.position
  flush f.position
  asCode v f.position

/-! ## Single steps -/

/-- Whether two expressions have the same value. -/
def same [Host] (n : Nat) (a b : Expr) : Action Bool := do
  let v ← eval n a
  let w ← eval n b
  return v.same w

/-- A native function that is no other callable. -/
def makeBuiltin (b : Builtin) : Action Value := return .callable (.builtin b (← stamp))

/-- Takes out what has been written since the last time. -/
def takeOutput : Action String := do
  let text := (← get).sink.written
  modify fun m => { m with sink := m.sink.empty }
  return text

end Action

/-! ## Texts -/

/-- A bound on the depth of an evaluation that no machine lives to see reached. -/
def bound : Nat := 1 <<< 62

/-- The result of an action, and the machine in which it ends. -/
def Machine.perform {α : Type} (m : Machine) (action : Action α) :
    Except (Halt Error) α × Machine :=
  match action m with
  | .ok a m => (.ok a, m)
  | .error halt m => (.error (halt.map .runtime), m)

/-- The value of a text that is an expression. -/
def evalText [Host] (source : String) : Except (Halt Error) Value := do
  let e ← parseExpression source
  (Machine.standard.perform (Action.eval bound e)).1

/-- The exit code of a text that is a program. -/
def runText [Host] (source : String) : Except (Halt Error) Int64 := do
  let (program, _) ← parseProgram source
  (Machine.standard.perform (Action.run bound program)).1

end Rightflow
