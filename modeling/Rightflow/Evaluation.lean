import Rightflow.Builtin

/-!
# Evaluation

Operands and arguments are evaluated from left to right, and a callee after its arguments.  An
argument that is the name of a variable is passed as a view of it, and any other argument by value.

Every function here takes a bound on the depth of the calls that it makes and is structural in it.
The bound is no part of the language: an evaluation that reaches it ends `exhausted`, and not in a
fault.
-/

namespace Rightflow

/-- How a statement ends: going on behind it, or returning from the function. -/
inductive Flow where
  | normal
  | returned (v : Value)

/-- The value of a call whose body has ended: the value returned, cast to the type of the function,
or the default of that type. -/
def Flow.result (flow : Flow) (ret : Ty) : Except Cause Value :=
  if ret.isVoid then .ok .none
  else match flow with
    | .returned v => v.cast ret
    | .normal => Value.default ret

namespace Action

/-- The value of a name: of the variable that it means, or else the function. -/
def name (name : String) (p : Position) : Action Value := do
  match ← resolve? name with
  | some w => read w
  | none =>
    match (← get).functions.find? name with
    | some c => return .callable c
    | none => fail p (.unknownName name)

/-- The callable that a value is. -/
def asCallable (v : Value) (p : Position) : Action Callable :=
  match v with
  | .callable c => return c
  | v => fail p (.notCallable v.kind)

/-- A callable with its first arguments bound. -/
def bindFront (callee : Callable) (args : List Arg) : Action Value :=
  return .callable (.bound callee args (← stamp))

/-! ## Expressions, calls and statements -/

variable [Host]

mutual

/-- The value of an expression. -/
def eval : Nat → Expr → Action Value
  | 0, _ => exhausted
  | n + 1, e =>
    match e with
    | .literal value _ => return .ofLiteral value
    | .name x p => name x p
    | .unary op operand p => do
      let v ← eval n operand
      attempt p (op.apply v)
    | .binary .decorate decorator target _ => do
      let decorator ← evalCallable n decorator
      let target ← evalCallable n target
      bindFront target [.value (.callable decorator)]
    | .binary op left right p => do
      let v ← eval n left
      let w ← eval n right
      attempt p (op.apply v w)
    | .call callee args p => do
      let args ← evalArgs n args
      let callee ← evalCallable n callee
      call n callee args p
    | .bind callee args _ => do
      let args ← evalArgs n args
      let callee ← evalCallable n callee
      bindFront callee args

/-- The callable that an expression is to be. -/
def evalCallable : Nat → Expr → Action Callable
  | 0, _ => exhausted
  | n + 1, e => do
    let v ← eval n e
    asCallable v e.position

/-- Arguments, from left to right. -/
def evalArgs : Nat → List Expr → Action (List Arg)
  | 0, _ => exhausted
  | _ + 1, [] => return []
  | n + 1, e :: es => do
    let a ← evalArg n e
    return a :: (← evalArgs n es)

/-- An argument: a view of the variable that it names, or a value. -/
def evalArg : Nat → Expr → Action Arg
  | 0, _ => exhausted
  | n + 1, e => do
    match e with
    | .name x _ =>
      match ← resolve? x with
      | some w => return .view w
      | none => return .value (← eval n e)
    | e => return .value (← eval n e)

/-- Whether a condition holds. -/
def test : Nat → Expr → Action Bool
  | 0, _ => exhausted
  | n + 1, e => do
    let v ← eval n e
    attempt e.position v.truth

/-- Calls a callable.  What was bound comes before what is given. -/
def call : Nat → Callable → List Arg → Position → Action Value
  | 0, _, _, _ => exhausted
  | n + 1, c, args, p =>
    match c with
    | .bound callee bound _ => call n callee (bound ++ args) p
    | .builtin b _ => callBuiltin b args p
    | .function f => do
      attempt p (checkArity f.name f.params.length args.length)
      let params ← bindParams p f.params args
      let flow ← inFrame { params := params } (execBlock n f.body)
      attempt p (flow.result f.ret)

/-- Runs a block in a scope of its own. -/
def execBlock : Nat → Block → Action Flow
  | 0, _ => exhausted
  | n + 1, body => inScope (execAll n body)

/-- Runs statements one after the other, up to one that returns. -/
def execAll : Nat → List Stmt → Action Flow
  | 0, _ => exhausted
  | _ + 1, [] => return .normal
  | n + 1, s :: rest => do
    match ← exec n s with
    | .returned v => return .returned v
    | .normal => execAll n rest

/-- Runs a statement. -/
def exec : Nat → Stmt → Action Flow
  | 0, _ => exhausted
  | n + 1, s =>
    match s with
    | .assign a => do
      assign n a
      return .normal
    | .run e _ => do
      let _ ← eval n e
      return .normal
    | .giveBack e _ => do
      let v ← eval n e
      return .returned v
    | .branch condition body otherwise _ => do
      if ← test n condition then execBlock n body else execOtherwise n otherwise
    | .whileLoop condition body _ => execWhile n condition body
    | .forLoop iterator condition body onIter p =>
      inScope (execFor n iterator condition body onIter p)

/-- Runs the branch that is left where a condition did not hold. -/
def execOtherwise : Nat → Otherwise → Action Flow
  | 0, _ => exhausted
  | n + 1, o =>
    match o with
    | .nothing => return .normal
    | .elif condition body otherwise _ => do
      if ← test n condition then execBlock n body else execOtherwise n otherwise
    | .block body _ => execBlock n body

/-- Declares a variable, or gives one another value. -/
def assign : Nat → Assignment → Action Unit
  | 0, _ => exhausted
  | n + 1, a => do
    let v ← eval n a.value
    match a.declared? with
    | some t => let _ ← declare a.name t v a.position
    | none => reassign a.name v a.position

/-- A loop without an iterator. -/
def execWhile : Nat → Expr → Block → Action Flow
  | 0, _, _ => exhausted
  | n + 1, condition, body => do
    if ← test n condition then
      match ← execBlock n body with
      | .returned v => return .returned v
      | .normal => execWhile n condition body
    else return .normal

/-- The variable of a loop, behind what its header does. -/
def loopView : Nat → Iterator → Action View
  | 0, _ => exhausted
  | n + 1, i =>
    match i with
    | .assign a => do
      assign n a
      resolve a.name a.position
    | .existing x p => resolve x p

/-- A loop with an iterator, in a scope that has been opened for it. -/
def execFor : Nat → Iterator → Expr → Block → Expr → Position → Action Flow
  | 0, _, _, _, _, _ => exhausted
  | n + 1, iterator, condition, body, onIter, p => do
    let w ← loopView n iterator
    let c ← evalCallable n onIter
    iterate n condition body c w p

/-- The rounds of a loop with an iterator: the body, and then a call with the variable. -/
def iterate : Nat → Expr → Block → Callable → View → Position → Action Flow
  | 0, _, _, _, _, _ => exhausted
  | n + 1, condition, body, c, w, p => do
    if ← test n condition then
      match ← execBlock n body with
      | .returned v => return .returned v
      | .normal =>
        let _ ← call n c [.view w] p
        iterate n condition body c w p
    else return .normal

end

end Action

end Rightflow
