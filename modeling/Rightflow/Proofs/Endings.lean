import Rightflow.Evaluation

/-!
# How actions end

The operations that touch the machine, as functions from the machine in which they begin to the
ending that they come to.  `Leads` states a property of an ending: one of the machine, whether there
is a result or not, and one of the result.
-/

namespace Rightflow

/-- A result or the reason why there is none, and the machine at that point. -/
abbrev Ending (α : Type) := EStateM.Result (Halt Fault) Machine α

namespace Ending

variable {α : Type}

/-- The machine of an ending. -/
def machine : Ending α → Machine
  | .ok _ m => m
  | .error _ m => m

/-- The result of an ending, or why there is none. -/
def result : Ending α → Except (Halt Fault) α
  | .ok x _ => .ok x
  | .error e _ => .error e

/-- The same ending in another machine. -/
def onMachine (ending : Ending α) (change : Machine → Machine) : Ending α :=
  match ending with
  | .ok x m => .ok x (change m)
  | .error e m => .error e (change m)

/-- Only the machine in which an action has ended is changed. -/
theorem onMachine_congr {ending : Ending α} {change change' : Machine → Machine}
    (same : change ending.machine = change' ending.machine) :
    ending.onMachine change = ending.onMachine change' := by
  cases ending with
  | ok x m => exact congrArg (EStateM.Result.ok x) same
  | error e m => exact congrArg (EStateM.Result.error e) same

/-- The end of an operation that may fail and leaves the machine as it is. -/
def ofExcept (p : Position) (m : Machine) : Except Cause α → Ending α
  | .ok x => .ok x m
  | .error cause => .error (.fault (.located p cause)) m

/-- The end of a function of the host, by its reply. -/
def ofReply (m : Machine) (reply : Reply) : Ending Value :=
  let m' := { m with store := reply.store, sink := reply.sink }
  match reply.outcome with
  | .ok v => .ok v m'
  | .error fault => .error (.fault fault) m'

end Ending

namespace Action

variable {α β : Type} {m : Machine}

/-! ## Endings of the operations -/

theorem bind_run (action : Action α) (next : α → Action β) :
    (action >>= next) m =
      match action m with
      | .ok x m' => next x m'
      | .error e m' => .error e m' := by
  change EStateM.bind action next m = _
  unfold EStateM.bind
  cases action m <;> rfl

/-- What is made of a result does not change the machine in which an action has ended. -/
theorem machine_map (f : α → β) (action : Action α) :
    Ending.machine ((do return f (← action)) m) = Ending.machine (action m) := by
  rw [bind_run]
  cases action m <;> rfl

theorem attempt_run (p : Position) (outcome : Except Cause α) :
    attempt p outcome m = Ending.ofExcept p m outcome := by
  cases outcome <;> rfl

theorem resolve?_run (x : String) : resolve? x m = .ok (m.frame.resolve? x) m := rfl

theorem name_run (x : String) (p : Position) :
    name x p m =
      match m.frame.resolve? x with
      | some w => .ok (m.store.get w.cell).value m
      | none =>
        match m.functions.find? x with
        | some c => .ok (.callable c) m
        | none => .error (.fault (.located p (.unknownName x))) m := by
  rw [name, bind_run, resolve?_run]
  cases m.frame.resolve? x with
  | some w => rfl
  | none =>
    change (match m.functions.find? x with
      | some c => pure (.callable c)
      | none => fail p (.unknownName x) : Action Value) m = _
    cases m.functions.find? x <;> rfl

theorem create_run (x : Variable) :
    create x m =
      .ok ((m.store.create x).2.directView m.store.size)
        { m with store := (m.store.create x).2 } := rfl

theorem declare_run (x : String) (t : Ty) (v : Value) (p : Position) :
    declare x t v p m =
      if t.isVoid then .error (.fault (.located p (.voidVariable x))) m
      else if m.frame.withScope.declares x then
        .error (.fault (.located p (.alreadyDeclared x))) { m with frame := m.frame.withScope }
      else
        match v.cast t with
        | .ok v =>
          let store := (m.store.create ⟨x, t, v⟩).2
          let w := store.directView m.store.size
          .ok w { m with store := store, frame := m.frame.withScope.declare w }
        | .error cause =>
          .error (.fault (.located p cause)) { m with frame := m.frame.withScope } := by
  unfold declare
  split
  · rfl
  · change (if _ then _ else _ : Action View) _ = _
    split
    · rfl
    · cases v.cast t <;> rfl

theorem reassign_run (x : String) (v : Value) (p : Position) :
    reassign x v p m =
      match m.frame.resolve? x with
      | none => .error (.fault (.located p (.undeclaredAssignment x))) m
      | some w =>
        if w.mutable then
          match v.cast (m.store.get w.cell).type with
          | .ok v => .ok () { m with store := m.store.set w.cell v }
          | .error cause => .error (.fault (.located p cause)) m
        else .error (.fault (.located p (.immutableAssignment x))) m := by
  rw [reassign, bind_run, resolve?_run]
  cases m.frame.resolve? x with
  | none => rfl
  | some w =>
    change (if _ then _ else _ : Action Unit) m = _
    dsimp only
    split
    · change (attempt p (v.cast (m.store.get w.cell).type) >>= write w.cell) m = _
      rw [bind_run, attempt_run]
      cases v.cast (m.store.get w.cell).type <;> rfl
    · rfl

theorem inScope_run (action : Action α) :
    inScope action m = Ending.onMachine (action m.pushScope) Machine.popScope := by
  change andFinally action Machine.popScope m.pushScope = _
  unfold andFinally Ending.onMachine
  cases action m.pushScope <;> rfl

theorem inFrame_run (f : Frame) (action : Action α) :
    inFrame f action m = Ending.onMachine (action (m.pushFrame f)) Machine.popFrame := by
  change andFinally action Machine.popFrame (m.pushFrame f) = _
  unfold andFinally Ending.onMachine
  cases action (m.pushFrame f) <;> rfl

theorem bindParam_run (x : Param) (a : Arg) (p : Position) :
    bindParam x a p m =
      match m.store.bindArg x a with
      | .ok (.view w) => .ok w m
      | .ok (.value v) => create ⟨x.name, x.type, v⟩ m
      | .error cause => .error (.fault (.located p cause)) m := by
  change (attempt p (m.store.bindArg x a) >>= _) m = _
  rw [bind_run, attempt_run]
  cases m.store.bindArg x a with
  | error cause => rfl
  | ok b => cases b <;> rfl

/-! ## Native functions -/

theorem native_write [Host] (a : Arg) (rest : List Arg) (p : Position) :
    native .write (a :: rest) p m =
      (writeValue (m.store.argValue a) p >>= fun _ => pure Value.none) m := rfl

theorem native_increment [Host] (a : Arg) (rest : List Arg) (p : Position) :
    native .increment (a :: rest) p m = (incrementArg a p >>= fun _ => pure Value.none) m := rfl

theorem writeValue_run (v : Value) (p : Position) :
    writeValue v p m =
      let (done, sink) := m.sink.writeAll v.pieces
      if done then .ok () { m with sink := sink }
      else .error (.fault (.located p (.output .full))) { m with sink := sink } := by
  change (if (m.sink.writeAll v.pieces).1 then _ else _ : Action Unit) _ = _
  dsimp only
  split <;> rfl

theorem incrementArg_run (w : View) (p : Position) :
    incrementArg (.view w) p m =
      match (m.store.get w.cell).value with
      | .int n =>
        match checked (n.toInt + 1) with
        | .ok v => .ok () { m with store := m.store.set w.cell v }
        | .error cause => .error (.fault (.located p cause)) m
      | _ => .ok () m := by
  change (match (m.store.get w.cell).value with
    | .int n => attempt p (checked (n.toInt + 1)) >>= write w.cell
    | _ => pure () : Action Unit) m = _
  cases (m.store.get w.cell).value with
  | int n =>
    dsimp only
    rw [bind_run, attempt_run]
    cases checked (n.toInt + 1) <;> rfl
  | none | string _ | flt _ | bool _ | callable _ => rfl

theorem foreign_run [Host] (code : Nat) (args : List Arg) (p : Position) :
    foreign code args p m = Ending.ofReply m (Host.run code args p m.store m.sink) := by
  unfold Ending.ofReply
  change (match (Host.run code args p m.store m.sink).outcome with
    | .ok v => pure v
    | .error fault => throw (.fault fault) : Action Value) _ = _
  cases (Host.run code args p m.store m.sink).outcome <;> rfl

/-- The standard host brings no functions. -/
theorem native_foreign [Memory] (code : Nat) (args : List Arg) (p : Position) :
    native (.foreign code) args p = (pure Value.none : Action Value) := rfl

/-- The native functions of the language give nothing. -/
theorem eq_none_of_native [Host] {action : Native} (own : ∀ code, action ≠ .foreign code)
    {args : List Arg} {p : Position} {v : Value} {m' : Machine}
    (ran : native action args p m = .ok v m') : v = .none := by
  have nothing {effect : Action Unit}
      (given : (effect >>= fun _ => pure Value.none) m = .ok v m') : v = .none := by
    rw [bind_run] at given
    cases ended : effect m <;> rw [ended] at given <;> cases given
    rfl
  cases action with
  | foreign code => exact absurd rfl (own code)
  | write =>
    cases args with
    | nil => cases ran
    | cons a rest => exact nothing ran
  | increment =>
    cases args with
    | nil => cases ran
    | cons a rest => exact nothing ran

theorem callBuiltin_run [Host] (b : Builtin) (args : List Arg) (p : Position) :
    callBuiltin b args p m =
      match checkArity b.name b.signature.params.length args.length with
      | .error cause => .error (.fault (.located p cause)) m
      | .ok _ =>
        match m.store.bindArgs b.params args with
        | .error cause => .error (.fault (.located p cause)) m
        | .ok bound => native b.native bound p m := by
  rw [callBuiltin, bind_run, attempt_run]
  cases checkArity b.name b.signature.params.length args.length with
  | error cause => rfl
  | ok _ =>
    change (attempt p (m.store.bindArgs b.params args) >>= _) m = _
    rw [bind_run, attempt_run]
    cases m.store.bindArgs b.params args <;> rfl

/-! ## Functions of the program -/

theorem call_function_run [Host] (n : Nat) (f : Function) (args : List Arg) (p : Position) :
    call (n + 1) (.function f) args p m =
      match checkArity f.name f.params.length args.length with
      | .error cause => .error (.fault (.located p cause)) m
      | .ok _ =>
        match bindParams p f.params args m with
        | .error e m₁ => .error e m₁
        | .ok params m₁ =>
          match execBlock n f.body (m₁.pushFrame { params := params }) with
          | .error e m₂ => .error e m₂.popFrame
          | .ok flow m₂ => Ending.ofExcept p m₂.popFrame (flow.result f.ret) := by
  simp only [call]
  rw [bind_run, attempt_run]
  cases checkArity f.name f.params.length args.length with
  | error cause => rfl
  | ok _ =>
    dsimp only [Ending.ofExcept]
    rw [bind_run]
    cases bindParams p f.params args m with
    | error e m₁ => rfl
    | ok params m₁ =>
      dsimp only
      rw [bind_run, inFrame_run]
      cases execBlock n f.body (m₁.pushFrame { params := params }) with
      | error e m₂ => rfl
      | ok flow m₂ => exact attempt_run p _

/-! ## Properties of endings -/

/-- The ending of an action has a property of its machine and, if there is a result, one of it. -/
def Leads (R : Machine → Prop) (action : Action α) (m : Machine) (Q : α → Store → Prop) : Prop :=
  match action m with
  | .ok x m' => R m' ∧ Q x m'.store
  | .error _ m' => R m'

variable {R : Machine → Prop} {action : Action α} {Q : α → Store → Prop}

theorem Leads.machine (leads : Leads R action m Q) : R (Ending.machine (action m)) := by
  unfold Leads at leads
  cases ending : action m with
  | ok x m' => rw [ending] at leads; exact leads.1
  | error e m' => rw [ending] at leads; exact leads

/-- An action of which only the machine in which it ends matters. -/
theorem Leads.of_machine (ends : R (Ending.machine (action m))) (any : ∀ x s, Q x s) :
    Leads R action m Q := by
  unfold Leads
  cases ending : action m with
  | ok x m' => rw [ending] at ends; exact ⟨ends, any x _⟩
  | error e m' => rw [ending] at ends; exact ends

theorem Leads.ok {x : α} {m' : Machine} (leads : Leads R action m Q) (ending : action m = .ok x m') :
    R m' ∧ Q x m'.store := by
  rw [Leads, ending] at leads
  exact leads

theorem Leads.mono {R' : Machine → Prop} {Q' : α → Store → Prop} (leads : Leads R action m Q)
    (machine : ∀ m', R m' → R' m') (result : ∀ x s, Q x s → Q' x s) : Leads R' action m Q' := by
  unfold Leads at leads ⊢
  cases ending : action m with
  | ok x m' => rw [ending] at leads; exact ⟨machine m' leads.1, result x _ leads.2⟩
  | error e m' => rw [ending] at leads; exact machine m' leads

theorem leads_inScope (body : Leads (fun m' => R m'.popScope) action m.pushScope Q) :
    Leads R (inScope action) m Q := by
  unfold Leads at body ⊢
  rw [inScope_run]
  cases ending : action m.pushScope <;> rw [ending] at body <;> exact body

theorem leads_inFrame {f : Frame}
    (body : Leads (fun m' => R m'.popFrame) action (m.pushFrame f) Q) :
    Leads R (inFrame f action) m Q := by
  unfold Leads at body ⊢
  rw [inFrame_run]
  cases ending : action (m.pushFrame f) <;> rw [ending] at body <;> exact body

theorem Leads.bind {R' : Machine → Prop} {next : α → Action β} {Q' : β → Store → Prop}
    (leads : Leads R action m Q) (failed : ∀ m', R m' → R' m')
    (later : ∀ x m', R m' → Q x m'.store → Leads R' (next x) m' Q') :
    Leads R' (action >>= next) m Q' := by
  unfold Leads at leads ⊢
  rw [bind_run]
  cases ending : action m with
  | ok x m' => rw [ending] at leads; exact later x m' leads.1 leads.2
  | error e m' => rw [ending] at leads; exact failed m' leads

end Action

end Rightflow
