import Rightflow.Host
import Rightflow.Machine

/-!
# Native functions

Two functions come with the language: `stdout` writes a string, and `increment` adds one to an
integer variable that may be assigned.  Others come from the host.  A native function is bound to
its arguments like any other, its parameters being named after it and counted from one; what it
gives is what the call gives.
-/

namespace Rightflow

namespace Builtin

/-- Writes a string to the output. -/
def stdout : Builtin := ⟨"stdout", ⟨.base .void false, [.base .string false]⟩, .write⟩

/-- Adds one to an integer variable. -/
def increment : Builtin := ⟨"increment", ⟨.base .void false, [.base .int true]⟩, .increment⟩

/-- The native functions that every program has. -/
def standard : List Builtin := [stdout, increment]

/-- The parameters by the names that messages give them. -/
def params (b : Builtin) : List Param :=
  b.signature.params.mapIdx fun i t => ⟨b.name ++ " argument " ++ toString (i + 1), t⟩

end Builtin

namespace Action

/-- Writes a value piece by piece. -/
def writeValue (v : Value) (p : Position) : Action Unit := do
  let (done, sink) := (← get).sink.writeAll v.pieces
  modify fun m => { m with sink := sink }
  if done then return () else fail p (.output .full)

/-- Adds one to an integer variable; other variables, and values, stay as they are. -/
def incrementArg (a : Arg) (p : Position) : Action Unit := do
  match a with
  | .value _ => return ()
  | .view w =>
    match ← read w with
    | .int n => write w.cell (← attempt p (checked (n.toInt + 1)))
    | _ => return ()

/-- Calls a function of the host. -/
def foreign [Host] (code : Nat) (args : List Arg) (p : Position) : Action Value := do
  let m ← get
  let reply := Host.run code args p m.store m.sink
  set { m with store := reply.store, sink := reply.sink }
  match reply.outcome with
  | .ok v => return v
  | .error fault => throw (.fault fault)

/-- What a native function does with its arguments.  For those of the language the first one counts,
and they give nothing. -/
def native [Host] (action : Native) (args : List Arg) (p : Position) : Action Value := do
  match action, args with
  | .write, [] => fail p (.argumentCount Builtin.stdout.name 1 0)
  | .increment, [] => fail p (.argumentCount Builtin.increment.name 1 0)
  | .write, a :: _ =>
    writeValue ((← get).store.argValue a) p
    return .none
  | .increment, a :: _ =>
    incrementArg a p
    return .none
  | .foreign code, args => foreign code args p

/-- Calls a native function. -/
def callBuiltin [Host] (b : Builtin) (args : List Arg) (p : Position) : Action Value := do
  attempt p (checkArity b.name b.signature.params.length args.length)
  let bound ← attempt p ((← get).store.bindArgs b.params args)
  native b.native bound p

end Action

end Rightflow
