import Mathlib.Data.List.Chain
import Rightflow.Proofs.Reached

/-!
# The course of a session

Between two neighbouring states of a session next to nothing happens: at most one variable is
created, one stamp is given out, or one value is written through a mutable view that is at hand.
`Grant.Steps` says so of two stores.  `Activity.course` lists the machines that an activity passes
through, in order of time, with a machine of its own for every parameter that is bound, and a
`Chronicle` does the same for a session.

The main statement is `Chronicle.chain`: a chronicle is made of such steps.  So a property of a
whole session follows from what one step preserves.
-/

namespace Rightflow

/-! ## Steps -/

/-- A store and the next one, under a grant that covers what is written through.  What a new
variable holds was at hand before it, and what is written is of the type of its variable. -/
inductive Grant.Steps (g : Grant) (s : Store) : Store → Prop
  | same : g.Steps s s
  | create (x : Variable) (allowed : g.AllowsArg s (.value x.value)) : g.Steps s (s.create x).2
  | stamp : g.Steps s s.stamp.2
  | write {w : View} (v : Value) (covered : g.Covers s w) (mutable : w.mutable = true)
      (typed : v.hasType (s.get w.cell).type = true) : g.Steps s (s.set w.cell v)

theorem Grant.Steps.grows {g : Grant} {s s' : Store} (step : g.Steps s s') : s.Grows s' := by
  cases step with
  | same => exact .refl s
  | create x _ => exact .create s x
  | stamp => exact .stamp s
  | @write w v _ _ _ => exact .set s w.cell v

/-! ## The course of an activity -/

/-- The machines in which a call stands while it binds its parameters. -/
def bindingCourse (p : Position) : List Param → List Arg → Machine → List Machine
  | x :: xs, a :: as, m =>
    match Action.bindParam x a p m with
    | .ok _ m' => m' :: bindingCourse p xs as m'
    | .error _ m' => [m']
  | _, _, _ => []

namespace Activity

/-- The machines that an activity passes through before it begins another one. -/
def preparation (m : Machine) : Activity → List Machine
  | .call (.function f) args p =>
    if f.params.length = args.length then bindingCourse p f.params args m else []
  | _ => []

/-- The machines that an activity passes through, from the one in which it begins to the one in
which it ends. -/
def course [Host] : Nat → Activity → Machine → List Machine
  | 0, t, m => [m, Ending.machine (t.action 0 m)]
  | n + 1, t, m =>
    (m :: t.preparation m) ++
      ((t.inner n m).flatMap (fun s => course n s.1 s.2) ++ [Ending.machine (t.action (n + 1) m)])

end Activity

/-! ## Chronicles -/

/-- The machines that a session passes through during a request, but for the one before it. -/
def Request.course [Host] (n : Nat) (r : Request) (m : Machine) : List Machine :=
  (r.activities m).flatMap (fun s => s.1.course n s.2) ++ [Ending.machine (r.action n m)]

/-- A session with all the machines that it has passed through, in order of time. -/
inductive Chronicle [Host] : (View → Prop) → Machine → List Machine → Prop
  | begin (sink : Sink) :
      Chronicle (fun _ => False) (.ofBuiltins Builtin.standard sink)
        [.ofBuiltins Builtin.standard sink]
  | request {known : View → Prop} {m : Machine} {states : List Machine} (n : Nat) (r : Request)
      (before : Chronicle known m states) (possible : ∀ a ∈ r.given, a.Known known) :
      Chronicle (fun w => known w ∨ Ending.Gives (r.action n m) w)
        (Ending.machine (r.action n m)) (states ++ r.course n m)

theorem Chronicle.session [Host] {known : View → Prop} {m : Machine} {states : List Machine}
    (chronicle : Chronicle known m states) : Session known m := by
  induction chronicle with
  | begin sink => exact .begin sink
  | request n r _ possible inductionHypothesis => exact .request n r inductionHypothesis possible

/-- Every session has a chronicle. -/
theorem Session.exists_chronicle [Host] {known : View → Prop} {m : Machine}
    (session : Session known m) : ∃ states, Chronicle known m states := by
  induction session with
  | begin sink => exact ⟨_, .begin sink⟩
  | request n r _ possible inductionHypothesis =>
    obtain ⟨states, chronicle⟩ := inductionHypothesis
    exact ⟨_, .request n r chronicle possible⟩

/-- A chronicle goes up to the machine that the session has reached. -/
theorem Chronicle.exists_eq_append [Host] {known : View → Prop} {m : Machine}
    {states : List Machine} (chronicle : Chronicle known m states) :
    ∃ before, states = before ++ [m] := by
  cases chronicle with
  | begin sink => exact ⟨[], rfl⟩
  | @request _ m₀ states n r _ _ =>
    exact ⟨states ++ (r.activities m₀).flatMap fun s => s.1.course n s.2,
      (List.append_assoc _ _ _).symm⟩

/-- A chronicle begins without variables. -/
theorem Chronicle.exists_eq_cons [Host] {known : View → Prop} {m : Machine} {states : List Machine}
    (chronicle : Chronicle known m states) :
    ∃ first rest, states = first :: rest ∧ first.store.size = 0 := by
  induction chronicle with
  | begin sink => exact ⟨_, [], rfl, rfl⟩
  | request n r before possible inductionHypothesis =>
    obtain ⟨first, rest, rfl, empty⟩ := inductionHypothesis
    exact ⟨first, _, List.cons_append, empty⟩

/-! ## One operation -/

namespace Grant

open Rightflow.Action

variable {g : Grant} {m : Machine}

theorem steps_bindParam {a : Arg} (held : g.AllowsArg m.store a) (x : Param) (p : Position) :
    g.Steps m.store (Ending.machine (bindParam x a p m)).store := by
  rw [bindParam_run]
  cases taken : m.store.bindArg x a with
  | error cause => exact .same
  | ok b =>
    cases b with
    | view w => exact .same
    | value v => exact .create _ (held.bindArg taken)

theorem steps_declare {v : Value} (held : g.AllowsArg m.store (.value v)) (x : String) (t : Ty)
    (p : Position) : g.Steps m.store (Ending.machine (declare x t v p m)).store := by
  rw [declare_run]
  split
  · exact .same
  · split
    · exact .same
    · split
      next given => exact .create _ fun l member => held l (Value.mem_leaves_of_cast given member)
      next => exact .same

theorem steps_reassign (ruled : g.Rules m) (x : String) (v : Value) (p : Position) :
    g.Steps m.store (Ending.machine (reassign x v p m)).store := by
  rw [reassign_run]
  cases found : m.frame.resolve? x with
  | none => exact .same
  | some w =>
    dsimp only
    split
    next mutable =>
      split
      next given =>
        exact .write _ (ruled.covers_of_resolve? found) mutable (Value.hasType_of_cast given)
      next => exact .same
    next => exact .same

theorem steps_native [Host] {action : Native} {args : List Arg} (governed : g.Governs m.store)
    (held : ∀ a ∈ args, g.AllowsArg m.store a) (fits : action.Fits m.store args) (p : Position) :
    g.Steps m.store (Ending.machine (native action args p m)).store := by
  cases action with
  | foreign code => exact fits.elim
  | write =>
    obtain ⟨a, _, rfl, _⟩ := fits
    rw [native_write, machine_map fun _ => Value.none, writeValue_run]
    dsimp only
    split <;> exact .same
  | increment =>
    obtain ⟨a, _, rfl, _, mutable⟩ := fits
    cases a with
    | value v => exact .same
    | view w =>
      have covered := allowsArg_view.mp (held (.view w) List.mem_cons_self)
      rw [native_increment, machine_map fun _ => Value.none, incrementArg_run]
      cases before : (m.store.get w.cell).value with
      | none | string _ | flt _ | bool _ | callable _ => exact .same
      | int n =>
        dsimp only
        cases sum : checked (n.toInt + 1) with
        | error cause => exact .same
        | ok v =>
          have typed := governed.typed w.cell (g.existing covered)
          rw [before] at typed
          obtain ⟨k, rfl⟩ := exists_int_of_checked sum
          exact .write _ covered (mutable w rfl) (Value.hasType_int typed)

end Grant

/-! ## From one activity to the next -/

namespace Activity

open Rightflow.Action

variable {g : Grant} {m : Machine} {n : Nat} {t : Activity} {α β : Type}

/-- From a store through some activities to another store: there is at most one change before each
of the activities, and at most one behind the last. -/
def Passes [Host] (g : Grant) (n : Nat) : Store → List (Activity × Machine) → Store → Prop
  | s, [], s' => g.Steps s s'
  | s, (t, m) :: rest, s' =>
    g.Steps s m.store ∧ Passes g n (Ending.machine (t.action n m)).store rest s'

variable {action : Action α} {next : α → Action β} {later : α → Machine → List (Activity × Machine)}

/-- An activity and nothing else. -/
theorem passes_single [Host] (begins : Ending.machine (t.action n m) = Ending.machine (action m)) :
    Passes g n m.store [(t, m)] (Ending.machine (action m)).store := by
  refine ⟨.same, ?_⟩
  rw [begins]
  exact .same

/-- What comes first is an activity, and what comes next lists its own. -/
theorem passes_bind [Host] (begins : Ending.machine (t.action n m) = Ending.machine (action m))
    (goesOn : ∀ x m', action m = .ok x m' →
      Passes g n m'.store (later x m') (Ending.machine (next x m')).store) :
    Passes g n m.store ((t, m) :: after action m later)
      (Ending.machine ((action >>= next) m)).store := by
  refine ⟨.same, ?_⟩
  rw [begins, bind_run]
  unfold after
  cases ending : action m with
  | ok x m' => exact goesOn x m' ending
  | error e m' => exact .same

/-- What comes first is an activity, and what comes next is an operation. -/
theorem passes_last [Host] (begins : Ending.machine (t.action n m) = Ending.machine (action m))
    (step : ∀ x m', action m = .ok x m' → g.Steps m'.store (Ending.machine (next x m')).store) :
    Passes g n m.store [(t, m)] (Ending.machine ((action >>= next) m)).store := by
  refine ⟨.same, ?_⟩
  rw [begins, bind_run]
  cases ending : action m with
  | ok x m' => exact step x m' ending
  | error e m' => exact .same

/-- What comes first is an operation that leaves the store as it is. -/
theorem passes_after [Host] (unchanged : (Ending.machine (action m)).store = m.store)
    (goesOn : ∀ x m', action m = .ok x m' →
      Passes g n m'.store (later x m') (Ending.machine (next x m')).store) :
    Passes g n m.store (after action m later) (Ending.machine ((action >>= next) m)).store := by
  rw [bind_run, ← unchanged]
  unfold after
  cases ending : action m with
  | ok x m' => exact goesOn x m' ending
  | error e m' => exact .same

theorem passes_unlessReturned [Host] {flow : Flow} {go : Action Flow}
    {rest : List (Activity × Machine)}
    (goesOn : Passes g n m.store rest (Ending.machine (go m)).store) :
    Passes g n m.store (unlessReturned flow rest)
      (Ending.machine ((match flow with
        | .returned v => pure (.returned v)
        | .normal => go : Action Flow) m)).store := by
  cases flow with
  | normal => exact goesOn
  | returned v => exact .same

theorem passes_branching [Host] {condition : Expr} {yes no : Action α}
    {taken left : Machine → List (Activity × Machine)}
    (yesInside : ∀ m', Passes g n m'.store (taken m') (Ending.machine (yes m')).store)
    (noInside : ∀ m', Passes g n m'.store (left m') (Ending.machine (no m')).store) :
    Passes g n m.store (branching n condition m taken left)
      (Ending.machine ((do if ← Action.test n condition then yes else no) m)).store := by
  refine passes_bind (machine_map _ _) fun holds m' _ => ?_
  cases holds with
  | true => exact yesInside m'
  | false => exact noInside m'

/-! ## Within one activity -/

/-- The machine in which an activity stands when it begins another one. -/
def prepared (t : Activity) (m : Machine) : Machine :=
  match t with
  | .call (.function f) args p =>
    if f.params.length = args.length then Ending.machine (bindParams p f.params args m) else m
  | _ => m

theorem passes_eval [Host] (e : Expr) :
    Passes g n m.store ((Activity.eval e).inner n m)
      (Ending.machine (Action.eval (n + 1) e m)).store := by
  cases e with
  | literal value p => exact .same
  | name x p =>
    change g.Steps m.store (Ending.machine (Action.name x p m)).store
    rw [name_run]
    split
    · exact .same
    · split <;> exact .same
  | unary op operand p =>
    refine passes_last (machine_map _ _) fun v m₁ _ => ?_
    rw [attempt_run]
    cases op.apply v <;> exact .same
  | binary op left right p =>
    have operands (op : BinaryOp) :
        Passes g n m.store ((.eval left, m) :: after (Action.eval n left) m
            fun _ m => [(.eval right, m)])
          (Ending.machine ((do
            let v ← Action.eval n left
            let w ← Action.eval n right
            attempt p (op.apply v w) : Action Value) m)).store := by
      refine passes_bind (machine_map _ _) fun v m₁ _ => ?_
      refine passes_last (machine_map _ _) fun w m₂ _ => ?_
      rw [attempt_run]
      cases op.apply v w <;> exact .same
    cases op with
    | decorate =>
      refine passes_bind (machine_map _ _) fun c m₁ _ => ?_
      exact passes_last (machine_map _ _) fun d m₂ _ => .stamp
    | _ => exact operands _
  | call callee args p =>
    refine passes_bind rfl fun as m₁ _ => passes_bind (machine_map _ _) fun c m₂ _ => ?_
    exact passes_single (machine_map _ _)
  | bind callee args p =>
    refine passes_bind rfl fun as m₁ _ => ?_
    exact passes_last (machine_map _ _) fun c m₂ _ => .stamp

theorem passes_argument [Host] (e : Expr) :
    Passes g n m.store ((Activity.argument e).inner n m)
      (Ending.machine (evalArg (n + 1) e m)).store := by
  have byValue (e : Expr) : Passes g n m.store [(.eval e, m)]
      (Ending.machine ((do return Arg.value (← Action.eval n e) : Action Arg) m)).store :=
    passes_single ((machine_map _ _).trans (machine_map _ _).symm)
  cases e with
  | name x p =>
    change Passes g n m.store _ (Ending.machine ((Action.resolve? x >>= _) m)).store
    simp only [Activity.inner, bind_run, resolve?_run]
    cases m.frame.resolve? x with
    | some w => exact .same
    | none => exact byValue (.name x p)
  | literal _ _ | unary _ _ _ | binary _ _ _ _ | call _ _ _ | bind _ _ _ => exact byValue _

/-- An activity in a scope that has been opened for it. -/
theorem passes_inScope [Host]
    (begins : Ending.machine (t.action n m.pushScope) = Ending.machine (action m.pushScope)) :
    Passes g n m.store [(t, m.pushScope)] (Ending.machine (inScope action m)).store := by
  refine ⟨.same, ?_⟩
  rw [begins, inScope_run]
  cases action m.pushScope <;> exact .same

theorem passes_statement [Host] (s : Stmt) :
    Passes g n m.store ((Activity.statement s).inner n m)
      (Ending.machine (Action.exec (n + 1) s m)).store := by
  cases s with
  | assign a => exact passes_last (machine_map _ _) fun _ _ _ => .same
  | run e p => exact passes_last (machine_map _ _) fun _ _ _ => .same
  | giveBack e p => exact passes_last (machine_map _ _) fun _ _ _ => .same
  | branch condition body others p =>
    exact passes_branching (fun _ => passes_single (machine_map _ _))
      fun _ => passes_single (machine_map _ _)
  | whileLoop condition body p => exact passes_single (machine_map _ _)
  | forLoop i condition body onIter p => exact passes_inScope (machine_map _ _)

theorem passes_otherwise [Host] (o : Otherwise) :
    Passes g n m.store ((Activity.otherwise o).inner n m)
      (Ending.machine (Action.execOtherwise (n + 1) o m)).store := by
  cases o with
  | nothing => exact .same
  | elif condition body others p =>
    exact passes_branching (fun _ => passes_single (machine_map _ _))
      fun _ => passes_single (machine_map _ _)
  | block body p => exact passes_single (machine_map _ _)

theorem passes_assign [Host] (ruled : g.Rules m) (a : Assignment) :
    Passes g n m.store ((Activity.assign a).inner n m)
      (Ending.machine (Action.assign (n + 1) a m)).store := by
  refine passes_last (machine_map _ _) fun v m₁ ending => ?_
  have evaluated : Leads (g.Turns m) (Action.eval n a.value) m g.discipline.HeldValue :=
    (g.discipline.lawful n).eval a.value m ruled
  obtain ⟨turned, held⟩ := evaluated.ok ending
  cases a.declared? with
  | some t =>
    have step := Grant.steps_declare held a.name t a.position
    rwa [← machine_map fun _ => ()] at step
  | none => exact Grant.steps_reassign turned.ruled a.name v a.position

theorem passes_whileLoop [Host] (condition : Expr) (body : Block) :
    Passes g n m.store ((Activity.whileLoop condition body).inner n m)
      (Ending.machine (Action.execWhile (n + 1) condition body m)).store := by
  refine passes_branching (fun m₁ => ?_) fun m₁ => .same
  refine passes_bind (machine_map _ _) fun flow m₂ _ => ?_
  exact passes_unlessReturned (passes_single (machine_map _ _))

theorem passes_rounds [Host] (condition : Expr) (body : Block) (c : Callable) (w : View)
    (p : Position) :
    Passes g n m.store ((Activity.rounds condition body c w p).inner n m)
      (Ending.machine (Action.iterate (n + 1) condition body c w p m)).store := by
  refine passes_branching (fun m₁ => ?_) fun m₁ => .same
  refine passes_bind (machine_map _ _) fun flow m₂ _ => ?_
  refine passes_unlessReturned (passes_bind (machine_map _ _) fun _ m₃ _ => ?_)
  exact passes_single (machine_map _ _)

theorem passes_call [Host] (c : Callable) (args : List Arg) (p : Position) :
    Passes g n ((Activity.call c args p).prepared m).store ((Activity.call c args p).inner n m)
      (Ending.machine (Action.call (n + 1) c args p m)).store := by
  cases c with
  | bound callee bound stamp => exact passes_single (machine_map _ _)
  | builtin b stamp =>
    change Passes g n m.store _ (Ending.machine (callBuiltin b args p m)).store
    simp only [Activity.inner, after, callBuiltin_run, attempt_run]
    cases checkArity b.name b.signature.params.length args.length with
    | error cause => exact .same
    | ok _ =>
      simp only [Ending.ofExcept]
      cases m.store.bindArgs b.params args with
      | error cause => exact .same
      | ok bound =>
        refine ⟨.same, ?_⟩
        simp only [Activity.action, machine_map (fun _ => ([] : List Arg))]
        exact .same
  | function f =>
    simp only [Activity.inner, after, attempt_run, call_function_run, checkArity, prepared]
    by_cases arity : f.params.length = args.length
    · simp only [if_pos arity, Ending.ofExcept]
      cases bindParams p f.params args m with
      | error e m₁ => exact .same
      | ok views m₁ =>
        refine ⟨.same, ?_⟩
        dsimp only
        simp only [Activity.action, machine_map Flow.given]
        cases execBlock n f.body (m₁.pushFrame { params := views }) with
        | error e m₂ => exact .same
        | ok flow m₂ =>
          dsimp only
          cases flow.result f.ret <;> exact .same
    · simp only [if_neg arity, Ending.ofExcept]
      exact .same

end Activity

open Activity Rightflow.Action in
/-- An activity goes from each of those that it begins to the next one in steps. -/
theorem Grant.Stands.passes [Host] {g : Grant} {known : View → Prop} {t : Activity} {m : Machine}
    (stands : g.Stands known t m) (n : Nat) :
    Passes g n (t.prepared m).store (t.inner n m) (Ending.machine (t.action (n + 1) m)).store := by
  obtain ⟨presides, held, fits⟩ := stands
  cases t with
  | eval e => rw [Activity.action, machine_map]; exact passes_eval e
  | callable e =>
    rw [Activity.action, machine_map]
    refine passes_last (machine_map _ _) fun v m₁ _ => ?_
    cases v <;> exact .same
  | arguments es =>
    cases es with
    | nil => exact .same
    | cons e es =>
      refine passes_bind (machine_map _ _) fun a m₁ _ => ?_
      exact passes_last rfl fun as m₂ _ => .same
  | argument e => rw [Activity.action, machine_map]; exact passes_argument e
  | test e =>
    rw [Activity.action, machine_map]
    refine passes_last (machine_map _ _) fun v m₁ _ => ?_
    rw [attempt_run]
    cases v.truth <;> exact .same
  | call c args p => rw [Activity.action, machine_map]; exact passes_call c args p
  | native action args p =>
    rw [Activity.action, machine_map]
    exact steps_native presides.store held fits p
  | block body => rw [Activity.action, machine_map]; exact passes_inScope (machine_map _ _)
  | statements body =>
    rw [Activity.action, machine_map]
    cases body with
    | nil => exact .same
    | cons s rest =>
      refine passes_bind (machine_map _ _) fun flow m₁ _ => ?_
      exact passes_unlessReturned (passes_single (machine_map _ _))
  | statement s => rw [Activity.action, machine_map]; exact passes_statement s
  | otherwise o => rw [Activity.action, machine_map]; exact passes_otherwise o
  | assign a => rw [Activity.action, machine_map]; exact passes_assign presides.toRules a
  | whileLoop condition body =>
    rw [Activity.action, machine_map]
    exact passes_whileLoop condition body
  | loopView i =>
    rw [Activity.action, machine_map]
    cases i with
    | assign a =>
      refine passes_last (machine_map _ _) fun _ m₁ _ => ?_
      rw [Action.resolve, bind_run, resolve?_run]
      cases m₁.frame.resolve? a.name <;> exact .same
    | existing x p =>
      change g.Steps m.store (Ending.machine (Action.resolve x p m)).store
      rw [Action.resolve, bind_run, resolve?_run]
      cases m.frame.resolve? x <;> exact .same
  | forLoop i condition body onIter p =>
    rw [Activity.action, machine_map]
    refine passes_bind (machine_map _ _) fun w m₁ _ => ?_
    exact passes_bind (machine_map _ _) fun c m₂ _ => passes_single (machine_map _ _)
  | rounds condition body c w p =>
    rw [Activity.action, machine_map]
    exact passes_rounds condition body c w p

/-! ## Chains of steps -/

/-- Machines in order of time, each one step behind the one before. -/
def Grant.Chain (g : Grant) (states : List Machine) : Prop :=
  states.IsChain fun m m' => g.Steps m.store m'.store

namespace Activity

variable {g : Grant} {m : Machine} {n : Nat} {t : Activity}

/-- Binding parameters creates them one by one. -/
theorem chain_bindingCourse (p : Position) (params : List Param) (args : List Arg) (m : Machine)
    (held : ∀ a ∈ args, g.AllowsArg m.store a) :
    ∃ before, m :: bindingCourse p params args m =
        before ++ [Ending.machine (Action.bindParams p params args m)] ∧
      g.Chain (m :: bindingCourse p params args m) := by
  induction params generalizing args m with
  | nil => exact ⟨[], rfl, List.isChain_singleton m⟩
  | cons x xs inductionHypothesis =>
    cases args with
    | nil => exact ⟨[], rfl, List.isChain_singleton m⟩
    | cons a as =>
      obtain ⟨heldHead, heldTail⟩ := List.forall_mem_cons.mp held
      have step := Grant.steps_bindParam heldHead x p
      rw [Action.bindParams_cons_run, bindingCourse]
      cases bound : Action.bindParam x a p m with
      | error e m₁ =>
        rw [bound] at step
        exact ⟨[m], rfl, List.isChain_pair.mpr step⟩
      | ok w m₁ =>
        rw [bound] at step
        obtain ⟨before, ends, chain⟩ := inductionHypothesis as m₁ fun a member =>
          (heldTail a member).mono step.grows
        refine ⟨m :: before, ?_, chain.cons_cons step⟩
        dsimp only
        rw [ends]
        cases Action.bindParams p xs as m₁ <;> rfl

theorem course_eq_cons [Host] (n : Nat) (t : Activity) (m : Machine) :
    ∃ rest, t.course n m = m :: rest := by
  cases n with
  | zero => exact ⟨_, rfl⟩
  | succ n => exact ⟨_, rfl⟩

theorem course_eq_append [Host] (n : Nat) (t : Activity) (m : Machine) :
    ∃ before, t.course n m = before ++ [Ending.machine (t.action n m)] := by
  cases n with
  | zero => exact ⟨[m], rfl⟩
  | succ n => exact ⟨_, (List.append_assoc _ _ _).symm⟩

/-- What is gone through in steps from one activity to the next is a chain if the courses of the
activities are. -/
theorem Passes.chain [Host] {activities : List (Activity × Machine)} {last : Machine}
    (passes : Passes g n m.store activities last.store)
    (chains : ∀ s ∈ activities, g.Chain (s.1.course n s.2)) :
    g.Chain (m :: (activities.flatMap (fun s => s.1.course n s.2) ++ [last])) := by
  induction activities generalizing m with
  | nil => exact List.isChain_pair.mpr passes
  | cons s rest inductionHypothesis =>
    obtain ⟨t, m₁⟩ := s
    obtain ⟨first, passesRest⟩ := passes
    obtain ⟨chain, chainsRest⟩ := List.forall_mem_cons.mp chains
    have later := inductionHypothesis passesRest chainsRest
    -- The course of the first activity ends where the way to the next one begins.
    obtain ⟨before, ends⟩ := course_eq_append n t m₁
    obtain ⟨others, begins⟩ := course_eq_cons n t m₁
    have joined : g.Chain (t.course n m₁ ++
        (rest.flatMap (fun s => s.1.course n s.2) ++ [last])) := by
      rw [Grant.Chain, ends] at chain ⊢
      exact chain.append_overlap later (List.cons_ne_nil _ _)
    rw [List.flatMap_cons, List.append_assoc]
    refine List.IsChain.cons joined fun m₂ head => ?_
    rw [begins] at head
    cases head
    exact first

theorem chain_preparation (t : Activity) (m : Machine)
    (held : ∀ a ∈ t.given, g.AllowsArg m.store a) :
    ∃ before, m :: t.preparation m = before ++ [t.prepared m] ∧ g.Chain (m :: t.preparation m) := by
  have nothing : ∃ before, [m] = before ++ [m] ∧ g.Chain [m] := ⟨[], rfl, List.isChain_singleton m⟩
  cases t with
  | call c args p =>
    cases c with
    | function f =>
      simp only [preparation, prepared]
      by_cases arity : f.params.length = args.length
      · simpa only [if_pos arity] using
          chain_bindingCourse p f.params args m (List.forall_mem_cons.mp held).2
      · simpa only [if_neg arity] using nothing
    | builtin _ _ | bound _ _ _ => exact nothing
  | _ => exact nothing

/-- The course of an activity is a chain of steps. -/
theorem chain_course [Host] {known : View → Prop} (n : Nat) (stands : g.Stands known t m) :
    g.Chain (t.course n m) := by
  induction n generalizing t m with
  | zero =>
    refine List.isChain_pair.mpr ?_
    cases t with
    | native action args p =>
      rw [Activity.action, Action.machine_map]
      exact Grant.steps_native stands.machine.store stands.held stands.fits p
    -- Without a bound all other activities end in the machine in which they begin.
    | _ => exact .same
  | succ n inductionHypothesis =>
    obtain ⟨before, ends, chain⟩ := chain_preparation t m stands.held
    have inside := Passes.chain (stands.passes n) fun s begun =>
      inductionHypothesis (stands.inner s begun)
    rw [course, ends]
    rw [Grant.Chain, ends] at chain
    exact chain.append_overlap inside (List.cons_ne_nil _ _)

end Activity

/-! ## Requests -/

namespace Action

variable {m : Machine}

theorem load_store (program : Program) (m : Machine) :
    (Ending.machine (load program m)).store = m.store := by
  induction program generalizing m with
  | nil => rfl
  | cons f rest inductionHypothesis =>
    rw [load, bind_run, define_run]
    cases m.functions.find? f.name with
    | none => exact inductionHypothesis _
    | some c => cases c <;> rfl

theorem mainFunction_store (m : Machine) : (Ending.machine (mainFunction m)).store = m.store := by
  rw [mainFunction_run]
  split <;> rfl

theorem finish_store (v : Value) (p : Position) (m : Machine) :
    (Ending.machine ((do flush p; asCode v p : Action Int64) m)).store = m.store := by
  rw [bind_run, flush_run]
  by_cases fails : m.sink.flushFails = true
  · rw [if_pos fails]
    rfl
  · rw [if_neg fails]
    cases v <;> rfl

end Action

open Activity Grant Rightflow.Action in
/-- A request goes from each activity to the next one in steps. -/
theorem Request.passes [Host] {g : Grant} {known : View → Prop} {m : Machine}
    (presides : g.Presides known m) (n : Nat) (r : Request)
    (held : ∀ a ∈ r.given, g.AllowsArg m.store a) :
    Passes g n m.store (r.activities m) (Ending.machine (r.action n m)).store := by
  cases r with
  | load program =>
    rw [Request.action, machine_map fun _ => ([] : List Arg)]
    change g.Steps m.store _
    rw [Action.load_store]
    exact .same
  | run program =>
    rw [Request.action, machine_map, Action.run, ← bind_assoc]
    refine passes_after ?_ fun f m₁ _ => passes_last (machine_map _ _) fun v m₂ _ => ?_
    · -- Loading and looking for the main function leave the store alone.
      have loaded := Action.load_store program m
      rw [Action.bind_run]
      cases ending : Action.load program m with
      | error e m₁ => rwa [ending] at loaded
      | ok _ m₁ =>
        rw [ending] at loaded
        exact (Action.mainFunction_store m₁).trans loaded
    · rw [Action.finish_store]
      exact .same
  | eval e => exact passes_single rfl
  | statement s => exact passes_single rfl
  | block body => exact passes_single rfl
  | call c args p => exact passes_single rfl
  | declare x t v p =>
    rw [Request.action, machine_map]
    exact steps_declare (held (.value v) List.mem_cons_self) x t p
  | reassign x v p =>
    rw [Request.action, machine_map fun _ => ([] : List Arg)]
    exact steps_reassign presides.toRules x v p
  | lookup x => exact .same
  | takeOutput => exact .same

open Activity Grant in
/-- A chronicle is a chain of steps. -/
theorem Chronicle.chain [Host] {g : Grant} {known : View → Prop} {m : Machine}
    {states : List Machine} (always : g.since = 0) (chronicle : Chronicle known m states) :
    g.Chain states := by
  induction chronicle with
  | begin sink => exact List.isChain_singleton _
  | @request known m states n r before possible inductionHypothesis =>
    have presides := before.session.presides always
    have held : ∀ a ∈ r.given, g.AllowsArg m.store a := fun a member =>
      presides.allowsArg (possible a member)
    have stand := Request.allStand presides r held
    have later := Passes.chain (Request.passes presides n r held) fun s begun =>
      chain_course n (stand s begun)
    -- The request begins in the machine with which the chronicle has ended so far.
    obtain ⟨earlier, ends⟩ := before.exists_eq_append
    rw [Grant.Chain, ends] at inductionHypothesis ⊢
    exact inductionHypothesis.append_overlap later (List.cons_ne_nil _ _)

/-! ## Nothing is left out -/

theorem Activity.Visits.mem_course [Host] {n k : Nat} {t t' : Activity} {m m' : Machine}
    (visited : Visits n t m k t' m') :
    m' ∈ t.course n m ∧ Ending.machine (t'.action k m') ∈ t.course n m := by
  induction visited with
  | here n t m =>
    obtain ⟨rest, begins⟩ := course_eq_cons n t m
    obtain ⟨before, ends⟩ := course_eq_append n t m
    exact ⟨by simp [begins], by simp [ends]⟩
  | @inside n _ t t₁ _ m m₁ _ begun _ inductionHypothesis =>
    have inside {m' : Machine} (member : m' ∈ t₁.course n m₁) : m' ∈ t.course (n + 1) m :=
      List.mem_append_right _ (List.mem_append_left _ (List.mem_flatMap.mpr ⟨_, begun, member⟩))
    exact ⟨inside inductionHypothesis.1, inside inductionHypothesis.2⟩

/-- Every state of a session stands in a chronicle. -/
theorem Reached.exists_chronicle [Host] {known : View → Prop} {m : Machine}
    (reached : Reached known m) :
    ∃ known' last states, Chronicle known' last states ∧ m ∈ states := by
  -- A chronicle up to the request that is going on, which the request then goes on with.
  have during {k : Nat} {t : Activity} {known : View → Prop} {m : Machine}
      (entered : Entered known k t m) : ∃ known' last states, Chronicle known' last states ∧
        m ∈ states ∧ Ending.machine (t.action k m) ∈ states := by
    obtain @⟨m₀, m₁, _, n, _, r, t₁, _, session, possible, begun, visited⟩ := entered
    obtain ⟨states, chronicle⟩ := session.exists_chronicle
    obtain ⟨entering, leaving⟩ := visited.mem_course
    have inside {m : Machine} (member : m ∈ t₁.course n m₁) : m ∈ states ++ r.course n m₀ :=
      List.mem_append_right _ (List.mem_append_left _ (List.mem_flatMap.mpr ⟨_, begun, member⟩))
    exact ⟨_, _, _, .request n r chronicle possible, inside entering, inside leaving⟩
  cases reached with
  | between session =>
    obtain ⟨states, chronicle⟩ := session.exists_chronicle
    obtain ⟨before, ends⟩ := chronicle.exists_eq_append
    exact ⟨_, _, states, chronicle, by simp [ends]⟩
  | entering entered =>
    obtain ⟨known', last, states, chronicle, member, _⟩ := during entered
    exact ⟨known', last, states, chronicle, member⟩
  | leaving entered =>
    obtain ⟨known', last, states, chronicle, _, member⟩ := during entered
    exact ⟨known', last, states, chronicle, member⟩

end Rightflow
