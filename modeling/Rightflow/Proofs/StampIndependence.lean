import Rightflow.Proofs.Stamps

/-!
# What a program does not depend on stamps

Begun in machines that differ in stamps, every evaluation does the same step by step and ends in
machines that differ in stamps (`evaluation_parallels`).  A stamp is only given out and carried
along: the one place where a stamp is made is where arguments are bound, and no place asks for one.
What a function of the host does with stamps is up to it, so that a host has to be one that makes
the same of what differs in stamps (`Host.Restamps`).

`Parallels` compares two actions begun in two such machines.  It has one rule for each way to put
actions together, so that an evaluator is followed along its text.
-/

namespace Rightflow

variable {α β : Type} {r : Nat → Nat → Prop}

namespace Machine

variable {m m' : Machine}

theorem Restamped.withStore (machines : m.Restamped r m') {s s' : Store}
    (restamped : s.Restamped r s') :
    Machine.Restamped r { m with store := s } { m' with store := s' } :=
  { machines with store := restamped }

theorem Restamped.withSink (machines : m.Restamped r m') (sink : Sink) :
    Machine.Restamped r { m with sink := sink } { m' with sink := sink } :=
  { machines with sink := rfl }

theorem Restamped.withFrame (machines : m.Restamped r m') (change : Frame → Frame) :
    Machine.Restamped r { m with frame := change m.frame } { m' with frame := change m'.frame } :=
  { machines with frame := congrArg change machines.frame }

theorem Restamped.pushFrame (machines : m.Restamped r m') (frame : Frame) :
    (m.pushFrame frame).Restamped r (m'.pushFrame frame) :=
  { machines with
    frame := rfl
    callers := by simp only [Machine.pushFrame, machines.frame, machines.callers] }

theorem Restamped.popFrame (machines : m.Restamped r m') : m.popFrame.Restamped r m'.popFrame :=
  { machines with
    frame := by simp only [Machine.popFrame, machines.callers]
    callers := by simp only [Machine.popFrame, machines.callers] }

end Machine

/-! ## Two runs -/

/-- Begun in machines that differ in stamps, the two actions end in machines that do. -/
def Action.Parallels (r : Nat → Nat → Prop) (P : α → α → Prop) (action action' : Action α) : Prop :=
  ∀ m m', m.Restamped r m' → Ending.Restamped r P (action m) (action' m')

namespace Action.Parallels

variable {P : α → α → Prop} {Q : β → β → Prop} {action action' : Action α}

theorem pure {a b : α} (related : P a b) : Parallels r P (pure a) (pure b) :=
  fun _ _ machines => .ok related machines

theorem fail (p : Position) (cause : Cause) :
    Parallels r P (Action.fail p cause) (Action.fail p cause) :=
  fun _ _ machines => .error _ machines

theorem exhausted : Parallels r P Action.exhausted Action.exhausted :=
  fun _ _ machines => .error _ machines

theorem attempt {outcome outcome' : Except Cause α} (p : Position)
    (agree : OutcomesAgree P outcome outcome') :
    Parallels r P (Action.attempt p outcome) (Action.attempt p outcome') := by
  cases agree with
  | ok related => exact .pure related
  | error cause => exact .fail p cause

theorem bind {k k' : α → Action β} (first : Parallels r P action action')
    (further : ∀ a b, P a b → Parallels r Q (k a) (k' b)) :
    Parallels r Q (action >>= k) (action' >>= k') := by
  intro m m' machines
  rw [Action.bind_run, Action.bind_run]
  have ends := first m m' machines
  generalize action m = ending, action' m' = ending' at ends ⊢
  cases ends with
  | ok related later => exact further _ _ related _ _ later
  | error e later => exact .error e later

/-- What is read off the machines may be used. -/
theorem get {k k' : Machine → Action β}
    (further : ∀ m m', m.Restamped r m' → Parallels r Q (k m) (k' m')) :
    Parallels r Q (MonadState.get >>= k) (MonadState.get >>= k') :=
  fun m m' machines => further m m' machines m m' machines

theorem modifies {g g' : Machine → Machine}
    (kept : ∀ m m', m.Restamped r m' → (g m).Restamped r (g' m')) :
    Parallels r (fun _ _ => True) (modify g : Action Unit) (modify g') :=
  fun m m' machines => .ok trivial (kept m m' machines)

theorem inScope (body : Parallels r P action action') :
    Parallels r P (Action.inScope action) (Action.inScope action') := by
  intro m m' machines
  rw [Action.inScope_run, Action.inScope_run]
  exact (body _ _ (machines.withFrame Frame.pushScope)).onMachine
    fun _ _ later => later.withFrame Frame.popScope

theorem inFrame (frame : Frame) (body : Parallels r P action action') :
    Parallels r P (Action.inFrame frame action) (Action.inFrame frame action') := by
  intro m m' machines
  rw [Action.inFrame_run, Action.inFrame_run]
  exact (body _ _ (machines.pushFrame frame)).onMachine fun _ _ later => later.popFrame

end Action.Parallels

/-! ## Hosts -/

/-- Replies that differ in stamps. -/
structure Reply.Restamped (r : Nat → Nat → Prop) (reply reply' : Reply) : Prop where
  outcome : OutcomesAgree (Value.Restamped r) reply.outcome reply'.outcome
  store : reply.store.Restamped r reply'.store
  sink : reply'.sink = reply.sink

/-- Given what differs in stamps, the functions of the host reply with what differs in stamps. -/
def Host.Restamps [Host] (r : Nat → Nat → Prop) : Prop :=
  ∀ (code : Nat) (args args' : List Arg) (p : Position) (s s' : Store) (k : Sink),
    List.Forall₂ (Arg.Restamped r) args args' → s.Restamped r s' →
      (Host.run code args p s k).Restamped r (Host.run code args' p s' k)

/-! ## Operations -/

/-- Flows with values that differ in stamps. -/
inductive Flow.Restamped (r : Nat → Nat → Prop) : Flow → Flow → Prop
  | normal : Flow.Restamped r .normal .normal
  | returned {v w : Value} : v.Restamped r w → Flow.Restamped r (.returned v) (.returned w)

theorem Flow.Restamped.result {flow flow' : Flow} (restamped : flow.Restamped r flow') (ret : Ty) :
    OutcomesAgree (Value.Restamped r) (flow.result ret) (flow'.result ret) := by
  unfold Flow.result
  split
  · exact .ok (.constant nofun)
  · cases restamped with
    | normal => exact Value.agree_of_givesConstant fun _ given => Value.isConstant_of_default given
    | returned held => exact held.cast ret

namespace Action

open Parallels

theorem resolve?_parallels (x : String) : Parallels r Eq (resolve? x) (resolve? x) :=
  .get fun _ _ machines => .pure (by rw [machines.frame])

theorem resolve_parallels (x : String) (p : Position) :
    Parallels r Eq (resolve x p) (resolve x p) := by
  refine (resolve?_parallels x).bind fun w? _ same => ?_
  subst same
  cases w? with
  | none => exact .fail p _
  | some w => exact .pure rfl

theorem read_parallels (w : View) : Parallels r (Value.Restamped r) (read w) (read w) :=
  .get fun _ _ machines => .pure (machines.store.value w.cell)

theorem create_parallels (x : String) (t : Ty) {v v' : Value} (value : v.Restamped r v') :
    Parallels r Eq (create ⟨x, t, v⟩) (create ⟨x, t, v'⟩) := by
  intro m m' machines
  have created := machines.store.create x t value
  rw [create_run, create_run]
  refine .ok ?_ (machines.withStore created)
  rw [Store.directView, Store.directView, machines.store.size, created.name, created.type]

theorem write_parallels (cell : Nat) {v v' : Value} (value : v.Restamped r v') :
    Parallels r (fun _ _ => True) (write cell v) (write cell v') :=
  .modifies fun _ _ machines => machines.withStore (machines.store.set value cell)

theorem asCallable_parallels {v v' : Value} (value : v.Restamped r v') (p : Position) :
    Parallels r (Callable.Restamped r) (asCallable v p) (asCallable v' p) := by
  cases value with
  | callable inner => exact .pure inner
  | constant constant =>
    cases v with
    | callable c => exact absurd rfl constant
    | none | string _ | int _ | flt _ | bool _ => exact .fail p _

/-- Both machines give out a stamp, and these are related. -/
theorem bindFront_parallels {c d : Callable} (callee : c.Restamped r d) {args args' : List Arg}
    (given : List.Forall₂ (Arg.Restamped r) args args') :
    Parallels r (Value.Restamped r) (bindFront c args) (bindFront d args') := fun _ _ machines =>
  .ok (.callable (.bound (machines.store.made 0) callee given))
    (machines.withStore machines.store.stamp)

theorem name_parallels (x : String) (p : Position) :
    Parallels r (Value.Restamped r) (name x p) (name x p) := by
  refine (resolve?_parallels x).bind fun w? _ same => ?_
  subst same
  cases w? with
  | some w => exact read_parallels w
  | none =>
    refine .get fun m m' machines => ?_
    rw [machines.functions]
    cases found : m.functions.find? x with
    | none => exact .fail p _
    | some c => exact .pure (.callable (machines.shared x c found))

theorem declare_parallels (x : String) (t : Ty) {v v' : Value} (value : v.Restamped r v')
    (p : Position) : Parallels r Eq (declare x t v p) (declare x t v' p) := by
  unfold declare
  split
  · exact .fail p _
  refine (Parallels.modifies fun _ _ machines => machines.withFrame Frame.withScope).bind
    fun _ _ _ => .get fun m m' machines => ?_
  rw [machines.frame]
  split
  · exact .fail p _
  refine (Parallels.attempt p (value.cast t)).bind fun u u' held => ?_
  refine (create_parallels x t held).bind fun w _ same => ?_
  subst same
  exact (Parallels.modifies fun _ _ later => later.withFrame (·.declare w)).bind
    fun _ _ _ => .pure rfl

theorem reassign_parallels (x : String) {v v' : Value} (value : v.Restamped r v') (p : Position) :
    Parallels r (fun _ _ => True) (reassign x v p) (reassign x v' p) := by
  refine (resolve?_parallels x).bind fun w? _ same => ?_
  subst same
  cases w? with
  | none => exact .fail p _
  | some w =>
    change Parallels r _ (if w.mutable then _ else _) (if w.mutable then _ else _)
    split
    · refine .get fun m m' machines => ?_
      change Parallels r _ _ (attempt p (v'.cast (m'.store.get w.cell).type) >>= write w.cell)
      rw [machines.store.type]
      exact (Parallels.attempt p (value.cast _)).bind fun u u' held => write_parallels w.cell held
    · exact .fail p _

/-! ### Arguments -/

theorem bindParam_parallels (x : Param) {a b : Arg} (arg : a.Restamped r b) (p : Position) :
    Parallels r Eq (bindParam x a p) (bindParam x b p) := by
  refine .get fun m m' machines => ?_
  refine (Parallels.attempt p (machines.store.bindArg x arg)).bind fun c c' bound => ?_
  cases bound with
  | value held => exact create_parallels x.name x.type held
  | view w => exact .pure rfl

theorem bindParams_parallels (p : Position) {params : List Param} {args args' : List Arg}
    (given : List.Forall₂ (Arg.Restamped r) args args') :
    Parallels r Eq (bindParams p params args) (bindParams p params args') := by
  induction params generalizing args args' with
  | nil => exact .pure rfl
  | cons x xs inductionHypothesis =>
    cases given with
    | nil => exact .pure rfl
    | cons head tail =>
      refine (bindParam_parallels x head p).bind fun w _ same => ?_
      subst same
      refine (inductionHypothesis tail).bind fun ws _ same => ?_
      subst same
      exact .pure rfl

/-! ### Native functions -/

theorem writeValue_parallels {v v' : Value} (value : v.Restamped r v') (p : Position) :
    Parallels r (fun _ _ => True) (writeValue v p) (writeValue v' p) := by
  refine .get fun m m' machines => ?_
  simp only [value.pieces, machines.sink]
  refine (Parallels.modifies fun _ _ later => later.withSink _).bind fun _ _ _ => ?_
  split
  · exact .pure trivial
  · exact .fail p _

theorem incrementArg_parallels {a b : Arg} (arg : a.Restamped r b) (p : Position) :
    Parallels r (fun _ _ => True) (incrementArg a p) (incrementArg b p) := by
  cases arg with
  | value _ => exact .pure trivial
  | view w =>
    refine (read_parallels w).bind fun v v' held => ?_
    cases held with
    | callable _ => exact .pure trivial
    | constant constant =>
      cases v with
      | int n =>
        have integer : OutcomesAgree (Value.Restamped r) _ _ :=
          Value.agree_of_givesConstant (checked_givesConstant (n.toInt + 1))
        exact (Parallels.attempt p integer).bind fun u u' next => write_parallels w.cell next
      | none | string _ | flt _ | bool _ | callable _ => exact .pure trivial

section

variable [Host] (restamps : Host.Restamps r)

include restamps

theorem foreign_parallels (code : Nat) {args args' : List Arg}
    (given : List.Forall₂ (Arg.Restamped r) args args') (p : Position) :
    Parallels r (Value.Restamped r) (foreign code args p) (foreign code args' p) := by
  intro m m' machines
  have replies := restamps code args args' p m.store m'.store m.sink given machines.store
  rw [foreign_run, foreign_run, machines.sink]
  generalize Host.run code args p m.store m.sink = reply,
    Host.run code args' p m'.store m.sink = reply' at replies ⊢
  obtain ⟨outcomes, stores, sinks⟩ := replies
  have later : Machine.Restamped r { m with store := reply.store, sink := reply.sink }
      { m' with store := reply'.store, sink := reply'.sink } :=
    { machines with store := stores, sink := sinks }
  unfold Ending.ofReply
  generalize reply.outcome = outcome, reply'.outcome = outcome' at outcomes ⊢
  cases outcomes with
  | ok related => exact .ok related later
  | error fault => exact .error _ later

theorem native_parallels (action : Native) {args args' : List Arg}
    (given : List.Forall₂ (Arg.Restamped r) args args') (p : Position) :
    Parallels r (Value.Restamped r) (native action args p) (native action args' p) := by
  have nothing (_ _ : Unit) (_ : True) :
      Parallels r (Value.Restamped r) (Pure.pure .none) (Pure.pure .none) := .pure (.constant nofun)
  cases action with
  | foreign code => exact foreign_parallels restamps code given p
  | increment =>
    cases given with
    | nil => exact .fail p _
    | cons head tail => exact (incrementArg_parallels head p).bind nothing
  | write =>
    cases given with
    | nil => exact .fail p _
    | cons head tail =>
      exact .get fun _ _ machines =>
        (writeValue_parallels (machines.store.argValue head) p).bind nothing

theorem callBuiltin_parallels (b : Builtin) {args args' : List Arg}
    (given : List.Forall₂ (Arg.Restamped r) args args') (p : Position) :
    Parallels r (Value.Restamped r) (callBuiltin b args p) (callBuiltin b args' p) := by
  unfold callBuiltin
  rw [given.length_eq]
  refine (Parallels.attempt p (.same _)).bind fun _ _ _ => ?_
  refine .get fun m m' machines => ?_
  exact (Parallels.attempt p (machines.store.bindArgs b.params given)).bind
    fun bound bound' taken => native_parallels restamps b.native taken p

end

/-! ## The induction over the evaluator -/

variable [Host]

/-- Evaluations under a bound do not depend on stamps. -/
structure IgnoresStamps (n : Nat) (r : Nat → Nat → Prop) : Prop where
  eval : ∀ e, Parallels r (Value.Restamped r) (eval n e) (eval n e)
  evalCallable : ∀ e, Parallels r (Callable.Restamped r) (evalCallable n e) (evalCallable n e)
  evalArgs : ∀ es, Parallels r (List.Forall₂ (Arg.Restamped r)) (evalArgs n es) (evalArgs n es)
  evalArg : ∀ e, Parallels r (Arg.Restamped r) (evalArg n e) (evalArg n e)
  test : ∀ e, Parallels r Eq (test n e) (test n e)
  call : ∀ {c d : Callable}, c.Restamped r d → ∀ {args args' : List Arg},
    List.Forall₂ (Arg.Restamped r) args args' → ∀ p,
      Parallels r (Value.Restamped r) (call n c args p) (call n d args' p)
  execBlock : ∀ body, Parallels r (Flow.Restamped r) (execBlock n body) (execBlock n body)
  execAll : ∀ body, Parallels r (Flow.Restamped r) (execAll n body) (execAll n body)
  exec : ∀ s, Parallels r (Flow.Restamped r) (exec n s) (exec n s)
  execOtherwise : ∀ o, Parallels r (Flow.Restamped r) (execOtherwise n o) (execOtherwise n o)
  assign : ∀ a, Parallels r (fun _ _ => True) (assign n a) (assign n a)
  execWhile : ∀ condition body,
    Parallels r (Flow.Restamped r) (execWhile n condition body) (execWhile n condition body)
  loopView : ∀ i, Parallels r Eq (loopView n i) (loopView n i)
  execFor : ∀ i condition body onIter p, Parallels r (Flow.Restamped r)
    (execFor n i condition body onIter p) (execFor n i condition body onIter p)
  iterate : ∀ condition body {c d : Callable}, c.Restamped r d → ∀ w p,
    Parallels r (Flow.Restamped r) (iterate n condition body c w p) (iterate n condition body d w p)

namespace IgnoresStamps

variable {n : Nat}

theorem eval_succ (before : IgnoresStamps n r) (e : Expr) :
    Parallels r (Value.Restamped r) (Action.eval (n + 1) e) (Action.eval (n + 1) e) := by
  cases e with
  | literal value p => exact .pure (.constant (Value.isConstant_ofLiteral value))
  | name x p => exact name_parallels x p
  | unary op operand p =>
    exact (before.eval operand).bind fun v v' held => .attempt p (op.apply_restamped held)
  | binary op left right p =>
    have operands (op : BinaryOp) : Parallels r (Value.Restamped r)
        (do let v ← Action.eval n left; let w ← Action.eval n right; attempt p (op.apply v w))
        (do let v ← Action.eval n left; let w ← Action.eval n right; attempt p (op.apply v w)) :=
      (before.eval left).bind fun v v' first => (before.eval right).bind fun w w' second =>
        .attempt p (op.apply_restamped first second)
    cases op with
    | decorate =>
      refine (before.evalCallable left).bind fun c c' decorator => ?_
      refine (before.evalCallable right).bind fun d d' target => ?_
      exact bindFront_parallels target (.cons (.value (.callable decorator)) .nil)
    | _ => exact operands _
  | call callee args p =>
    refine (before.evalArgs args).bind fun as as' given => ?_
    exact (before.evalCallable callee).bind fun c c' inner => before.call inner given p
  | bind callee args p =>
    refine (before.evalArgs args).bind fun as as' given => ?_
    exact (before.evalCallable callee).bind fun c c' inner => bindFront_parallels inner given

theorem evalArgs_succ (before : IgnoresStamps n r) (es : List Expr) :
    Parallels r (List.Forall₂ (Arg.Restamped r)) (Action.evalArgs (n + 1) es)
      (Action.evalArgs (n + 1) es) := by
  cases es with
  | nil => exact .pure .nil
  | cons e es =>
    exact (before.evalArg e).bind fun a a' head => (before.evalArgs es).bind
      fun as as' tail => .pure (.cons head tail)

theorem evalArg_succ (before : IgnoresStamps n r) (e : Expr) :
    Parallels r (Arg.Restamped r) (Action.evalArg (n + 1) e) (Action.evalArg (n + 1) e) := by
  have byValue : Parallels r (Arg.Restamped r) (do return .value (← Action.eval n e))
      (do return .value (← Action.eval n e)) :=
    (before.eval e).bind fun v v' held => .pure (.value held)
  cases e with
  | name x p =>
    refine (resolve?_parallels x).bind fun w? _ same => ?_
    subst same
    cases w? with
    | none => exact byValue
    | some w => exact .pure (.view w)
  | literal _ _ | unary _ _ _ | binary _ _ _ _ | call _ _ _ | bind _ _ _ => exact byValue

theorem test_succ (before : IgnoresStamps n r) (e : Expr) :
    Parallels r Eq (Action.test (n + 1) e) (Action.test (n + 1) e) := by
  refine (before.eval e).bind fun v v' held => ?_
  rw [held.truth]
  exact .attempt e.position (.same _)

theorem call_succ (restamps : Host.Restamps r) (before : IgnoresStamps n r) {c d : Callable}
    (inner : c.Restamped r d) {args args' : List Arg}
    (given : List.Forall₂ (Arg.Restamped r) args args') (p : Position) :
    Parallels r (Value.Restamped r) (Action.call (n + 1) c args p)
      (Action.call (n + 1) d args' p) := by
  cases inner with
  | builtin b related => exact callBuiltin_parallels restamps b given p
  | bound related callee bound => exact before.call callee (List.rel_append bound given) p
  | function f =>
    simp only [Action.call, ← given.length_eq]
    refine (Parallels.attempt p (.same _)).bind fun _ _ _ => ?_
    refine (bindParams_parallels p given).bind fun ws _ same => ?_
    subst same
    exact (Parallels.inFrame { params := ws } (before.execBlock f.body)).bind
      fun flow flow' ends => .attempt p (ends.result f.ret)

/-- A branch or a round of a loop: a condition, and then one of two actions. -/
theorem branch (before : IgnoresStamps n r) (condition : Expr)
    {holds holds' fails fails' : Action Flow}
    (whenHolds : Parallels r (Flow.Restamped r) holds holds')
    (whenFails : Parallels r (Flow.Restamped r) fails fails') :
    Parallels r (Flow.Restamped r) (do if ← Action.test n condition then holds else fails)
      (do if ← Action.test n condition then holds' else fails') := by
  refine (before.test condition).bind fun b _ same => ?_
  subst same
  cases b with
  | true => exact whenHolds
  | false => exact whenFails

omit [Host] in
/-- What is done behind an action that has not returned. -/
theorem unlessReturned {go go' : Action Flow} (later : Parallels r (Flow.Restamped r) go go')
    (flow flow' : Flow) : flow.Restamped r flow' →
    Parallels r (Flow.Restamped r)
      (match flow with | .returned v => pure (.returned v) | .normal => go)
      (match flow' with | .returned v => pure (.returned v) | .normal => go') := by
  intro ends
  cases ends with
  | normal => exact later
  | returned held => exact .pure (.returned held)

theorem execAll_succ (before : IgnoresStamps n r) (body : List Stmt) :
    Parallels r (Flow.Restamped r) (Action.execAll (n + 1) body) (Action.execAll (n + 1) body) := by
  cases body with
  | nil => exact .pure .normal
  | cons s rest =>
    exact (before.exec s).bind (unlessReturned (before.execAll rest))

theorem exec_succ (before : IgnoresStamps n r) (s : Stmt) :
    Parallels r (Flow.Restamped r) (Action.exec (n + 1) s) (Action.exec (n + 1) s) := by
  cases s with
  | assign a => exact (before.assign a).bind fun _ _ _ => .pure .normal
  | run e p => exact (before.eval e).bind fun _ _ _ => .pure .normal
  | giveBack e p => exact (before.eval e).bind fun v v' held => .pure (.returned held)
  | branch condition body otherwise p =>
    exact before.branch condition (before.execBlock body) (before.execOtherwise otherwise)
  | whileLoop condition body p => exact before.execWhile condition body
  | forLoop i condition body onIter p =>
    exact .inScope (before.execFor i condition body onIter p)

theorem execOtherwise_succ (before : IgnoresStamps n r) (o : Otherwise) :
    Parallels r (Flow.Restamped r) (Action.execOtherwise (n + 1) o)
      (Action.execOtherwise (n + 1) o) := by
  cases o with
  | nothing => exact .pure .normal
  | elif condition body otherwise p =>
    exact before.branch condition (before.execBlock body) (before.execOtherwise otherwise)
  | block body p => exact before.execBlock body

theorem assign_succ (before : IgnoresStamps n r) (a : Assignment) :
    Parallels r (fun _ _ => True) (Action.assign (n + 1) a) (Action.assign (n + 1) a) := by
  refine (before.eval a.value).bind fun v v' held => ?_
  cases a.declared? with
  | some t => exact (declare_parallels a.name t held a.position).bind fun _ _ _ => .pure trivial
  | none => exact reassign_parallels a.name held a.position

theorem execWhile_succ (before : IgnoresStamps n r) (condition : Expr) (body : Block) :
    Parallels r (Flow.Restamped r) (Action.execWhile (n + 1) condition body)
      (Action.execWhile (n + 1) condition body) :=
  before.branch condition
    ((before.execBlock body).bind (unlessReturned (before.execWhile condition body)))
    (.pure .normal)

theorem loopView_succ (before : IgnoresStamps n r) (i : Iterator) :
    Parallels r Eq (Action.loopView (n + 1) i) (Action.loopView (n + 1) i) := by
  cases i with
  | assign a => exact (before.assign a).bind fun _ _ _ => resolve_parallels a.name a.position
  | existing x p => exact resolve_parallels x p

theorem execFor_succ (before : IgnoresStamps n r) (i : Iterator) (condition : Expr) (body : Block)
    (onIter : Expr) (p : Position) :
    Parallels r (Flow.Restamped r) (Action.execFor (n + 1) i condition body onIter p)
      (Action.execFor (n + 1) i condition body onIter p) := by
  refine (before.loopView i).bind fun w _ same => ?_
  subst same
  exact (before.evalCallable onIter).bind fun c c' inner =>
    before.iterate condition body inner w p

theorem iterate_succ (before : IgnoresStamps n r) (condition : Expr) (body : Block)
    {c d : Callable} (inner : c.Restamped r d) (w : View) (p : Position) :
    Parallels r (Flow.Restamped r) (Action.iterate (n + 1) condition body c w p)
      (Action.iterate (n + 1) condition body d w p) :=
  before.branch condition
    ((before.execBlock body).bind (unlessReturned
      ((before.call inner (.cons (.view w) .nil) p).bind fun _ _ _ =>
        before.iterate condition body inner w p)))
    (.pure .normal)

end IgnoresStamps

/-- No evaluation depends on stamps, on a host that does not either. -/
theorem evaluation_parallels (n : Nat) (restamps : Host.Restamps r) : IgnoresStamps n r := by
  -- The evaluators call each other, and the bound falls with every call.
  induction n with
  | zero => constructor <;> intros <;> exact .exhausted
  | succ n inductionHypothesis =>
    exact {
      eval := inductionHypothesis.eval_succ
      evalCallable := fun e => (inductionHypothesis.eval e).bind
        fun _ _ held => asCallable_parallels held e.position
      evalArgs := inductionHypothesis.evalArgs_succ
      evalArg := inductionHypothesis.evalArg_succ
      test := inductionHypothesis.test_succ
      call := inductionHypothesis.call_succ restamps
      execBlock := fun body => .inScope (inductionHypothesis.execAll body)
      execAll := inductionHypothesis.execAll_succ
      exec := inductionHypothesis.exec_succ
      execOtherwise := inductionHypothesis.execOtherwise_succ
      assign := inductionHypothesis.assign_succ
      execWhile := inductionHypothesis.execWhile_succ
      loopView := inductionHypothesis.loopView_succ
      execFor := inductionHypothesis.execFor_succ
      iterate := inductionHypothesis.iterate_succ }

end Action

end Rightflow
