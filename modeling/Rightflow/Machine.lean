import Rightflow.FunctionTable
import Rightflow.Halt
import Rightflow.Operation
import Rightflow.Sink
import Rightflow.Store

/-!
# The machine

The machine is all that a running program reads and changes: the functions, the store, the frame of
the function that runs, the frames of those that wait for it, and the sink.

A name is looked up in the scopes of the current frame, from the innermost outward and in each from
the latest variable back, and then among the parameters.  The frames of callers are out of sight.

An action ends with the state that it has reached, whether it ends in a result or not; `inScope` and
`inFrame` take back the scope and the frame that they open in either case.
-/

namespace Rightflow

/-! ## Frames -/

structure Frame where
  params : List View := []
  /-- Innermost first, and in each scope the latest variable first. -/
  scopes : List (List View) := []
deriving DecidableEq, Repr

namespace Frame

/-- All that may be named, what hides others before them. -/
def views (f : Frame) : List View := f.scopes.flatten ++ f.params

/-- The variable that a name means. -/
def resolve? (f : Frame) (name : String) : Option View :=
  f.views.find? fun w => w.name = name

/-- The innermost scope; in a frame without a scope there is nothing yet. -/
def innermost (f : Frame) : List View := f.scopes.headD []

/-- Whether the innermost scope has a variable of a name. -/
def declares (f : Frame) (name : String) : Bool := f.innermost.any fun w => w.name = name

/-- Adds a variable to the innermost scope. -/
def declare (f : Frame) (w : View) : Frame :=
  { f with scopes := (w :: f.innermost) :: f.scopes.tail }

def pushScope (f : Frame) : Frame := { f with scopes := [] :: f.scopes }

def popScope (f : Frame) : Frame := { f with scopes := f.scopes.tail }

/-- The frame with a scope to declare in, which one without any opens. -/
def withScope (f : Frame) : Frame := if f.scopes = [] then f.pushScope else f

@[simp] theorem popScope_pushScope (f : Frame) : f.pushScope.popScope = f := rfl

@[simp] theorem views_pushScope (f : Frame) : f.pushScope.views = f.views := rfl

@[simp] theorem views_withScope (f : Frame) : f.withScope.views = f.views := by
  unfold withScope; split <;> rfl

theorem views_declare (f : Frame) (w : View) : (f.declare w).views = w :: f.views := by
  rcases f with ⟨params, _ | ⟨scope, rest⟩⟩ <;> rfl

/-- A variable just declared is what its name means, and what other names mean stays. -/
theorem resolve?_declare (f : Frame) (w : View) (name : String) :
    (f.declare w).resolve? name = if w.name = name then some w else f.resolve? name := by
  simp only [resolve?, views_declare, List.find?_cons]
  by_cases h : w.name = name <;> simp [h]

end Frame

/-! ## States and actions -/

structure Machine where
  functions : FunctionTable := {}
  store : Store := {}
  frame : Frame := {}
  /-- The frames of the callers, the latest first. -/
  callers : List Frame := []
  sink : Sink := {}

namespace Machine

def pushScope (m : Machine) : Machine := { m with frame := m.frame.pushScope }

def popScope (m : Machine) : Machine := { m with frame := m.frame.popScope }

def pushFrame (m : Machine) (f : Frame) : Machine :=
  { m with frame := f, callers := m.frame :: m.callers }

def popFrame (m : Machine) : Machine :=
  { m with frame := m.callers.headD {}, callers := m.callers.tail }

@[simp] theorem popScope_pushScope (m : Machine) : m.pushScope.popScope = m := rfl

@[simp] theorem popFrame_pushFrame (m : Machine) (f : Frame) : (m.pushFrame f).popFrame = m := rfl

/-- Adds a native function. -/
def addBuiltin (m : Machine) (b : Builtin) : Machine :=
  let (stamp, store) := m.store.stamp
  { m with store := store, functions := m.functions.insert b.name (.builtin b stamp) }

/-- A machine with native functions, of which a later one replaces an earlier one of its name. -/
def ofBuiltins (builtins : List Builtin) (sink : Sink := {}) : Machine :=
  builtins.foldl addBuiltin { sink := sink }

end Machine

/-- A step of a program. -/
abbrev Action (α : Type) := EStateM (Halt Fault) Machine α

namespace Action

variable {α : Type}

def exhausted : Action α := throw .exhausted

def fail (p : Position) (cause : Cause) : Action α := throw (.fault (.located p cause))

/-- Takes the outcome of an operation asked for at a position. -/
def attempt (p : Position) : Except Cause α → Action α
  | .ok a => return a
  | .error cause => fail p cause

/-- Runs an action and changes the state in which it ends, however it ends. -/
def andFinally (action : Action α) (change : Machine → Machine) : Action α := fun m =>
  match action m with
  | .ok a m => .ok a (change m)
  | .error e m => .error e (change m)

/-- Runs an action in a scope of its own. -/
def inScope (action : Action α) : Action α := do
  modify Machine.pushScope
  andFinally action Machine.popScope

/-- Runs an action in another frame. -/
def inFrame (f : Frame) (action : Action α) : Action α := do
  modify fun m => m.pushFrame f
  andFinally action Machine.popFrame

/-! ## Variables -/

/-- The variable that a name means here. -/
def resolve? (name : String) : Action (Option View) :=
  return (← get).frame.resolve? name

/-- The variable that a name means here, which has to mean one. -/
def resolve (name : String) (p : Position) : Action View := do
  match ← resolve? name with
  | some w => return w
  | none => fail p (.unknownName name)

/-- The value that a variable has now. -/
def read (w : View) : Action Value := return ((← get).store.get w.cell).value

/-- Creates a variable. -/
def create (x : Variable) : Action View := do
  let (cell, store) := (← get).store.create x
  modify fun m => { m with store := store }
  return store.directView cell

/-- Gives a variable another value. -/
def write (cell : Nat) (v : Value) : Action Unit :=
  modify fun m => { m with store := m.store.set cell v }

/-- A stamp that no callable bears yet. -/
def stamp : Action Nat := do
  let (n, store) := (← get).store.stamp
  modify fun m => { m with store := store }
  return n

/-- Declares a variable in the innermost scope, with a value cast to its type.  A frame without a
scope opens one, which stays even if the value is not of the type. -/
def declare (name : String) (t : Ty) (v : Value) (p : Position) : Action View := do
  if t.isVoid then fail p (.voidVariable name)
  else
    modify fun m => { m with frame := m.frame.withScope }
    if (← get).frame.declares name then fail p (.alreadyDeclared name)
    else
      let v ← attempt p (v.cast t)
      let w ← create ⟨name, t, v⟩
      modify fun m => { m with frame := m.frame.declare w }
      return w

/-- Assigns a value, cast to the type of the variable, through a view that allows it. -/
def reassign (name : String) (v : Value) (p : Position) : Action Unit := do
  match ← resolve? name with
  | none => fail p (.undeclaredAssignment name)
  | some w =>
    if w.mutable then
      let v ← attempt p (v.cast ((← get).store.get w.cell).type)
      write w.cell v
    else fail p (.immutableAssignment name)

end Action

/-! ## Arguments -/

/-- An argument as a parameter takes it.  A value is cast.  A view has to be of a variable of the
same type, but for mutability, and a parameter that is mutable needs a view that is; the parameter
gets a view of its own, under its name. -/
def Store.bindArg (s : Store) (x : Param) (a : Arg) : Except Cause Arg :=
  match a with
  | .value v => (v.cast x.type).map .value
  | .view w =>
    let found := (s.get w.cell).type
    if !x.type.sameShape found then .error (.referenceType x.name x.type found)
    else if x.type.isMutable && !w.mutable then .error (.immutableReference w.name)
    else .ok (.view ⟨w.cell, x.name, x.type.isMutable⟩)

/-- Arguments as parameters take them, up to the first one that is not taken. -/
def Store.bindArgs (s : Store) : List Param → List Arg → Except Cause (List Arg)
  | x :: xs, a :: as => do
    let b ← s.bindArg x a
    return b :: (← s.bindArgs xs as)
  | _, _ => return []

/-- Whether a function that takes some parameters is given as many arguments. -/
def checkArity (name : String) (expected found : Nat) : Except Cause Unit :=
  if expected = found then .ok () else .error (.argumentCount name expected found)

namespace Action

/-- The view that a parameter is for the body of its function: that of the variable given, or of a
new one that holds the value given. -/
def bindParam (x : Param) (a : Arg) (p : Position) : Action View := do
  match ← attempt p ((← get).store.bindArg x a) with
  | .view w => return w
  | .value v => create ⟨x.name, x.type, v⟩

def bindParams (p : Position) : List Param → List Arg → Action (List View)
  | x :: xs, a :: as => do
    let w ← bindParam x a p
    return w :: (← bindParams p xs as)
  | _, _ => return []

end Action

end Rightflow
