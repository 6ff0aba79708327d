import Rightflow.Proofs.Activities

/-!
# Running out of the bound

Evaluations are bounded, and one that reaches the bound ends without a result.  The operations of
the machine never do so themselves.  So an activity reaches its bound if and only if one that it
begins does (`Activity.exhausts_succ_iff`), and then it has gone down to where nothing of the bound
is left (`Activity.visits_zero_of_exhausts`): the activities that `Activity.inner` lists are those
that the evaluator goes through, and none is missing.
-/

namespace Rightflow

/-- Whether an action, begun in a machine, reaches the bound. -/
def Action.Exhausts {α : Type} (action : Action α) (m : Machine) : Prop :=
  ∃ m', action m = .error .exhausted m'

namespace Action

variable {α β : Type} {action : Action α} {next : α → Action β} {m : Machine}

theorem exhausts_bind_iff :
    (action >>= next).Exhausts m ↔
      action.Exhausts m ∨ ∃ x m', action m = .ok x m' ∧ (next x).Exhausts m' := by
  unfold Exhausts
  rw [bind_run]
  cases action m with
  | ok x m' => simp
  | error e m' => simp

/-- An operation that comes to its end whatever the bound is. -/
def Settles (action : Action α) : Prop := ∀ m, ¬ action.Exhausts m

theorem settles_pure (x : α) : Settles (pure x : Action α) := by
  rintro m ⟨m', ending⟩
  cases ending

theorem settles_fail (p : Position) (cause : Cause) : Settles (fail p cause : Action α) := by
  rintro m ⟨m', ending⟩
  cases ending

theorem settles_attempt (p : Position) (outcome : Except Cause α) :
    Settles (attempt p outcome) := by
  cases outcome with
  | ok x => exact settles_pure x
  | error cause => exact settles_fail p cause

theorem Settles.bind (first : Settles action) (later : ∀ x, Settles (next x)) :
    Settles (action >>= next) := by
  intro m exhausts
  rcases exhausts_bind_iff.mp exhausts with before | ⟨x, m', _, after⟩
  · exact first m before
  · exact later x m' after

theorem Settles.exhausts_bind_iff (settles : Settles action) :
    (action >>= next).Exhausts m ↔ ∃ x m', action m = .ok x m' ∧ (next x).Exhausts m' := by
  rw [Action.exhausts_bind_iff]
  exact or_iff_right (settles m)

/-- What an operation makes of a result has no part in reaching the bound. -/
theorem exhausts_bind_iff_of_settles (settles : ∀ x, Settles (next x)) :
    (action >>= next).Exhausts m ↔ action.Exhausts m := by
  rw [Action.exhausts_bind_iff]
  refine or_iff_left ?_
  rintro ⟨x, m', _, exhausts⟩
  exact settles x m' exhausts

theorem exhausts_map_iff {list : α → β} :
    Action.Exhausts (do return list (← action)) m ↔ action.Exhausts m :=
  exhausts_bind_iff_of_settles fun _ => settles_pure _

theorem settles_asCallable (v : Value) (p : Position) : Settles (asCallable v p) := by
  cases v with
  | callable c => exact settles_pure c
  | none | string _ | int _ | flt _ | bool _ => exact settles_fail p _

theorem settles_resolve (x : String) (p : Position) : Settles (resolve x p) := by
  rintro m ⟨m', ending⟩
  rw [resolve, bind_run, resolve?_run] at ending
  cases found : m.frame.resolve? x <;> rw [found] at ending <;> cases ending

theorem settles_name (x : String) (p : Position) : Settles (name x p) := by
  rintro m ⟨m', ending⟩
  rw [name_run] at ending
  cases found : m.frame.resolve? x with
  | some w => rw [found] at ending; cases ending
  | none =>
    rw [found] at ending
    cases defined : m.functions.find? x <;> rw [defined] at ending <;> cases ending

theorem settles_bindFront (callee : Callable) (args : List Arg) :
    Settles (bindFront callee args) := by
  rintro m ⟨m', ending⟩
  cases ending

theorem settles_declare (x : String) (t : Ty) (v : Value) (p : Position) :
    Settles (declare x t v p) := by
  rintro m ⟨m', ending⟩
  rw [declare_run] at ending
  split at ending
  · cases ending
  · split at ending
    · cases ending
    · cases given : v.cast t <;> rw [given] at ending <;> cases ending

theorem settles_reassign (x : String) (v : Value) (p : Position) : Settles (reassign x v p) := by
  rintro m ⟨m', ending⟩
  rw [reassign_run] at ending
  cases found : m.frame.resolve? x with
  | none => rw [found] at ending; cases ending
  | some w =>
    rw [found] at ending
    dsimp only at ending
    split at ending
    · cases given : v.cast (m.store.get w.cell).type <;> rw [given] at ending <;> cases ending
    · cases ending

theorem settles_bindParams (p : Position) (params : List Param) (args : List Arg) :
    Settles (bindParams p params args) := by
  induction params generalizing args with
  | nil => exact settles_pure []
  | cons x xs inductionHypothesis =>
    cases args with
    | nil => exact settles_pure []
    | cons a as =>
      refine Settles.bind ?_ fun w => (inductionHypothesis as).bind fun ws => settles_pure _
      rintro m ⟨m', ending⟩
      rw [bindParam_run] at ending
      rcases taken : m.store.bindArg x a with cause | b
      · rw [taken] at ending; cases ending
      · rw [taken] at ending; cases b <;> cases ending

theorem settles_writeValue (v : Value) (p : Position) : Settles (writeValue v p) := by
  rintro m ⟨m', ending⟩
  rw [writeValue_run] at ending
  dsimp only at ending
  split at ending <;> cases ending

theorem settles_incrementArg (a : Arg) (p : Position) : Settles (incrementArg a p) := by
  rintro m ⟨m', ending⟩
  cases a with
  | value v => cases ending
  | view w =>
    rw [incrementArg_run] at ending
    split at ending
    · split at ending <;> cases ending
    · cases ending

theorem settles_native [Host] (action : Native) (args : List Arg) (p : Position) :
    Settles (native action args p) := by
  cases action with
  | foreign code =>
    rintro m ⟨m', ending⟩
    change foreign code args p m = _ at ending
    rw [foreign_run, Ending.ofReply] at ending
    split at ending <;> cases ending
  | write =>
    cases args with
    | nil => exact settles_fail p _
    | cons a rest =>
      intro m
      exact ((settles_writeValue (m.store.argValue a) p).bind fun _ => settles_pure Value.none) m
  | increment =>
    cases args with
    | nil => exact settles_fail p _
    | cons a rest => exact (settles_incrementArg a p).bind fun _ => settles_pure _

theorem exhausts_inScope_iff : (inScope action).Exhausts m ↔ action.Exhausts m.pushScope := by
  unfold Exhausts
  rw [inScope_run]
  cases action m.pushScope with
  | ok x m' => exact ⟨nofun, nofun⟩
  | error e m' => simp [Ending.onMachine]

theorem exhausts_inFrame_iff {f : Frame} :
    (inFrame f action).Exhausts m ↔ action.Exhausts (m.pushFrame f) := by
  unfold Exhausts
  rw [inFrame_run]
  cases action (m.pushFrame f) with
  | ok x m' => exact ⟨nofun, nofun⟩
  | error e m' => simp [Ending.onMachine]

end Action

/-! ## Activities -/

namespace Activity

open Rightflow.Action

variable [Host] {α : Type} {action : Action α} {m : Machine} {n : Nat} {t : Activity}
  {rest : List (Activity × Machine)}

def SomeExhausts (n : Nat) (activities : List (Activity × Machine)) : Prop :=
  ∃ s ∈ activities, (s.1.action n).Exhausts s.2

theorem not_someExhausts_nil : ¬ SomeExhausts n [] := nofun

theorem someExhausts_cons_iff :
    SomeExhausts n ((t, m) :: rest) ↔ (t.action n).Exhausts m ∨ SomeExhausts n rest := by
  simp only [SomeExhausts, List.mem_cons, exists_eq_or_imp]

theorem someExhausts_single_iff : SomeExhausts n [(t, m)] ↔ (t.action n).Exhausts m := by
  simp only [SomeExhausts, List.mem_singleton, exists_eq_left]

theorem someExhausts_after_iff {later : α → Machine → List (Activity × Machine)} :
    SomeExhausts n (after action m later) ↔
      ∃ x m', action m = .ok x m' ∧ SomeExhausts n (later x m') := by
  unfold after
  cases action m with
  | ok x m' => simp
  | error e m' => simp [not_someExhausts_nil]

variable {β : Type} {next : α → Action β} {later : α → Machine → List (Activity × Machine)}

/-- What comes first is an activity, and what comes next lists its own. -/
theorem someExhausts_bind_iff (begins : (t.action n).Exhausts m ↔ action.Exhausts m)
    (goesOn : ∀ x m', SomeExhausts n (later x m') ↔ (next x).Exhausts m') :
    SomeExhausts n ((t, m) :: after action m later) ↔ (action >>= next).Exhausts m := by
  rw [someExhausts_cons_iff, someExhausts_after_iff, exhausts_bind_iff, begins]
  simp only [goesOn]

/-- What comes first is an operation. -/
theorem someExhausts_settled_iff (settles : Settles action)
    (goesOn : ∀ x m', SomeExhausts n (later x m') ↔ (next x).Exhausts m') :
    SomeExhausts n (after action m later) ↔ (action >>= next).Exhausts m := by
  rw [someExhausts_after_iff, settles.exhausts_bind_iff]
  simp only [goesOn]

/-- What comes first is an activity, and what comes next is an operation. -/
theorem someExhausts_last_iff (begins : (t.action n).Exhausts m ↔ action.Exhausts m)
    (settles : ∀ x, Settles (next x)) :
    SomeExhausts n [(t, m)] ↔ (action >>= next).Exhausts m := by
  rw [someExhausts_single_iff, begins, exhausts_bind_iff_of_settles settles]

theorem someExhausts_nil_iff (settles : Settles action) : SomeExhausts n [] ↔ action.Exhausts m :=
  iff_of_false not_someExhausts_nil (settles m)

theorem someExhausts_unlessReturned_iff {flow : Flow} {go : Action Flow}
    (goesOn : SomeExhausts n rest ↔ go.Exhausts m) :
    SomeExhausts n (unlessReturned flow rest) ↔
      Action.Exhausts (match flow with | .returned v => pure (.returned v) | .normal => go) m := by
  cases flow with
  | normal => exact goesOn
  | returned v => exact someExhausts_nil_iff (settles_pure _)

theorem someExhausts_branching_iff {condition : Expr} {yes no : Action α}
    {taken left : Machine → List (Activity × Machine)}
    (yesInside : ∀ m', SomeExhausts n (taken m') ↔ yes.Exhausts m')
    (noInside : ∀ m', SomeExhausts n (left m') ↔ no.Exhausts m') :
    SomeExhausts n (branching n condition m taken left) ↔
      Action.Exhausts (do if ← Action.test n condition then yes else no) m := by
  refine someExhausts_bind_iff exhausts_map_iff fun holds m' => ?_
  cases holds with
  | true => exact yesInside m'
  | false => exact noInside m'

/-! ## One level down -/

theorem eval_exhausts_iff {e : Expr} :
    SomeExhausts n ((Activity.eval e).inner n m) ↔ (Action.eval (n + 1) e).Exhausts m := by
  cases e with
  | literal value p => exact someExhausts_nil_iff (settles_pure _)
  | name x p => exact someExhausts_nil_iff (settles_name x p)
  | unary op operand p =>
    exact someExhausts_last_iff exhausts_map_iff fun v => settles_attempt p _
  | binary op left right p =>
    have operands (op : BinaryOp) :
        SomeExhausts n ((.eval left, m) :: after (Action.eval n left) m
            fun _ m => [(.eval right, m)]) ↔
          Action.Exhausts (do
            let v ← Action.eval n left
            let w ← Action.eval n right
            attempt p (op.apply v w)) m :=
      someExhausts_bind_iff exhausts_map_iff fun v m' =>
        someExhausts_last_iff exhausts_map_iff fun w => settles_attempt p _
    cases op with
    | decorate =>
      exact someExhausts_bind_iff exhausts_map_iff fun c m' =>
        someExhausts_last_iff exhausts_map_iff fun d => settles_bindFront d _
    | _ => exact operands _
  | call callee args p =>
    exact someExhausts_bind_iff Iff.rfl fun as m₁ => someExhausts_bind_iff exhausts_map_iff
      fun c m₂ => someExhausts_single_iff.trans exhausts_map_iff
  | bind callee args p =>
    exact someExhausts_bind_iff Iff.rfl fun as m₁ =>
      someExhausts_last_iff exhausts_map_iff fun c => settles_bindFront c as

theorem call_exhausts_iff {c : Callable} {args : List Arg} {p : Position} :
    SomeExhausts n ((Activity.call c args p).inner n m) ↔
      (Action.call (n + 1) c args p).Exhausts m := by
  cases c with
  | builtin b stamp =>
    refine someExhausts_settled_iff (settles_attempt p _) fun _ m₁ => ?_
    change SomeExhausts n (after (attempt p (m₁.store.bindArgs b.params args)) m₁ _) ↔
      (attempt p (m₁.store.bindArgs b.params args) >>= _).Exhausts m₁
    refine someExhausts_settled_iff (settles_attempt p _) fun bound m₂ => ?_
    exact someExhausts_single_iff.trans (exhausts_bind_iff_of_settles fun _ => settles_pure [])
  | bound callee bound stamp => exact someExhausts_single_iff.trans exhausts_map_iff
  | function f =>
    simp only [Action.call]
    refine someExhausts_settled_iff (settles_attempt p _) fun _ m₁ => ?_
    refine someExhausts_settled_iff (settles_bindParams p f.params args) fun params m₂ => ?_
    -- The result is cast when the frame is closed again, which takes nothing of the bound.
    rw [exhausts_bind_iff_of_settles fun flow => settles_attempt p _, exhausts_inFrame_iff]
    exact someExhausts_single_iff.trans exhausts_map_iff

theorem argument_exhausts_iff {e : Expr} :
    SomeExhausts n ((Activity.argument e).inner n m) ↔ (Action.evalArg (n + 1) e).Exhausts m := by
  have byValue (e : Expr) : SomeExhausts n [(.eval e, m)] ↔
      Action.Exhausts (do return Arg.value (← Action.eval n e)) m :=
    someExhausts_single_iff.trans (exhausts_map_iff.trans exhausts_map_iff.symm)
  cases e with
  | name x p =>
    change _ ↔ (Action.resolve? x >>= _).Exhausts m
    -- A name is evaluated only where it means no variable.
    simp only [Activity.inner, Action.Exhausts, bind_run, resolve?_run]
    cases m.frame.resolve? x with
    | some w => exact someExhausts_nil_iff (settles_pure (Arg.view w))
    | none => exact byValue (.name x p)
  | literal _ _ | unary _ _ _ | binary _ _ _ _ | call _ _ _ | bind _ _ _ => exact byValue _

theorem statement_exhausts_iff {s : Stmt} :
    SomeExhausts n ((Activity.statement s).inner n m) ↔ (Action.exec (n + 1) s).Exhausts m := by
  cases s with
  | assign a => exact someExhausts_last_iff exhausts_map_iff fun _ => settles_pure _
  | run e p => exact someExhausts_last_iff exhausts_map_iff fun _ => settles_pure _
  | giveBack e p => exact someExhausts_last_iff exhausts_map_iff fun _ => settles_pure _
  | branch condition body others p =>
    exact someExhausts_branching_iff (fun _ => someExhausts_single_iff.trans exhausts_map_iff)
      fun _ => someExhausts_single_iff.trans exhausts_map_iff
  | whileLoop condition body p => exact someExhausts_single_iff.trans exhausts_map_iff
  | forLoop i condition body onIter p =>
    change _ ↔ (inScope (execFor n i condition body onIter p)).Exhausts m
    rw [exhausts_inScope_iff]
    exact someExhausts_single_iff.trans exhausts_map_iff

theorem otherwise_exhausts_iff {o : Otherwise} :
    SomeExhausts n ((Activity.otherwise o).inner n m) ↔
      (Action.execOtherwise (n + 1) o).Exhausts m := by
  cases o with
  | nothing => exact someExhausts_nil_iff (settles_pure _)
  | elif condition body others p =>
    exact someExhausts_branching_iff (fun _ => someExhausts_single_iff.trans exhausts_map_iff)
      fun _ => someExhausts_single_iff.trans exhausts_map_iff
  | block body p => exact someExhausts_single_iff.trans exhausts_map_iff

theorem assign_exhausts_iff {a : Assignment} :
    SomeExhausts n ((Activity.assign a).inner n m) ↔ (Action.assign (n + 1) a).Exhausts m := by
  refine someExhausts_last_iff exhausts_map_iff fun v => ?_
  cases a.declared? with
  | some t => exact (settles_declare a.name t v a.position).bind fun _ => settles_pure _
  | none => exact settles_reassign a.name v a.position

theorem whileLoop_exhausts_iff {condition : Expr} {body : Block} :
    SomeExhausts n ((Activity.whileLoop condition body).inner n m) ↔
      (Action.execWhile (n + 1) condition body).Exhausts m := by
  refine someExhausts_branching_iff (fun m₁ => ?_) fun m₁ => someExhausts_nil_iff (settles_pure _)
  refine someExhausts_bind_iff exhausts_map_iff fun flow m₂ => ?_
  exact someExhausts_unlessReturned_iff (someExhausts_single_iff.trans exhausts_map_iff)

theorem rounds_exhausts_iff {condition : Expr} {body : Block} {c : Callable} {w : View}
    {p : Position} :
    SomeExhausts n ((Activity.rounds condition body c w p).inner n m) ↔
      (Action.iterate (n + 1) condition body c w p).Exhausts m := by
  refine someExhausts_branching_iff (fun m₁ => ?_) fun m₁ => someExhausts_nil_iff (settles_pure _)
  refine someExhausts_bind_iff exhausts_map_iff fun flow m₂ => ?_
  refine someExhausts_unlessReturned_iff (someExhausts_bind_iff exhausts_map_iff fun _ m₃ => ?_)
  exact someExhausts_single_iff.trans exhausts_map_iff

/-- An activity reaches its bound if and only if one that it begins does. -/
theorem exhausts_succ_iff (t : Activity) :
    (t.action (n + 1)).Exhausts m ↔ SomeExhausts n (t.inner n m) := by
  -- What an activity answers does not matter to whether it is exhausted, so it is taken off first.
  cases t with
  | eval e => exact exhausts_map_iff.trans eval_exhausts_iff.symm
  | callable e =>
    refine exhausts_map_iff.trans (Iff.symm ?_)
    exact someExhausts_last_iff exhausts_map_iff fun v => settles_asCallable v e.position
  | arguments es =>
    cases es with
    | nil => exact (someExhausts_nil_iff (settles_pure _)).symm
    | cons e es =>
      refine Iff.symm (someExhausts_bind_iff exhausts_map_iff fun a m' => ?_)
      exact someExhausts_last_iff Iff.rfl fun as => settles_pure _
  | argument e => exact exhausts_map_iff.trans argument_exhausts_iff.symm
  | test e =>
    refine exhausts_map_iff.trans (Iff.symm ?_)
    exact someExhausts_last_iff exhausts_map_iff fun v => settles_attempt e.position _
  | call c args p => exact exhausts_map_iff.trans call_exhausts_iff.symm
  | native action args p =>
    have settles := (settles_native action args p).bind fun _ => settles_pure ([] : List Arg)
    exact (someExhausts_nil_iff settles).symm
  | block body =>
    refine exhausts_map_iff.trans ?_
    change (inScope (execAll n body)).Exhausts m ↔ _
    rw [exhausts_inScope_iff]
    exact (someExhausts_single_iff.trans exhausts_map_iff).symm
  | statements body =>
    refine exhausts_map_iff.trans (Iff.symm ?_)
    cases body with
    | nil => exact someExhausts_nil_iff (settles_pure _)
    | cons s rest =>
      refine someExhausts_bind_iff exhausts_map_iff fun flow m₁ => ?_
      exact someExhausts_unlessReturned_iff (someExhausts_single_iff.trans exhausts_map_iff)
  | statement s => exact exhausts_map_iff.trans statement_exhausts_iff.symm
  | otherwise o => exact exhausts_map_iff.trans otherwise_exhausts_iff.symm
  | assign a => exact exhausts_map_iff.trans assign_exhausts_iff.symm
  | whileLoop condition body => exact exhausts_map_iff.trans whileLoop_exhausts_iff.symm
  | loopView i =>
    refine exhausts_map_iff.trans (Iff.symm ?_)
    cases i with
    | assign a =>
      exact someExhausts_last_iff exhausts_map_iff fun _ => settles_resolve a.name a.position
    | existing x p => exact someExhausts_nil_iff (settles_resolve x p)
  | forLoop i condition body onIter p =>
    refine exhausts_map_iff.trans (Iff.symm ?_)
    refine someExhausts_bind_iff exhausts_map_iff fun w m₁ => ?_
    refine someExhausts_bind_iff exhausts_map_iff fun c m₂ => ?_
    exact someExhausts_single_iff.trans exhausts_map_iff
  | rounds condition body c w p => exact exhausts_map_iff.trans rounds_exhausts_iff.symm

/-- An activity that reaches its bound has come to one for which nothing of it was left. -/
theorem visits_zero_of_exhausts (t : Activity) (exhausts : (t.action n).Exhausts m) :
    ∃ t' m', Visits n t m 0 t' m' := by
  induction n generalizing t m with
  | zero => exact ⟨t, m, .here 0 t m⟩
  | succ n inductionHypothesis =>
    obtain ⟨⟨t₁, m₁⟩, begun, inside⟩ := t.exhausts_succ_iff.mp exhausts
    obtain ⟨t', m', visited⟩ := inductionHypothesis t₁ inside
    exact ⟨t', m', .inside begun visited⟩

end Activity

end Rightflow
