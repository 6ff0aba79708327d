import Rightflow.Proofs.StoreTyping

/-!
# How many arguments a call takes

Arguments can be bound to a callable in several layers, around one callable that nothing is bound
to, its root.  A call goes down to the root with all that was bound put before what is given, and
counts the arguments there and nowhere before (`call_counts`).

The type of a callable is that of its root without the parameters that are bound.  So a variable of
a function type tells how many arguments to give (`function_types_count_arguments`), unless more
arguments were bound than the root has parameters: the type has no parameters left then, and every
call fails.
-/

namespace Rightflow

namespace Callable

/-! ## Layers -/

/-- The callable inside all layers of bound arguments. -/
def root : Callable → Callable
  | .bound callee _ _ => callee.root
  | .function f => .function f
  | .builtin b stamp => .builtin b stamp

/-- All that is bound, in the order in which the root is given it: the latest comes last. -/
def leading : Callable → List Arg
  | .bound callee args _ => callee.leading ++ args
  | .function _ | .builtin .. => []

/-- In how many layers arguments are bound. -/
def layers : Callable → Nat
  | .bound callee _ _ => callee.layers + 1
  | .function _ | .builtin .. => 0

/-- How many parameters the root has. -/
def arity (c : Callable) : Nat := c.root.signature.params.length

@[simp] theorem root_bound (c : Callable) (args : List Arg) (stamp : Nat) :
    (bound c args stamp).root = c.root := rfl

@[simp] theorem leading_bound (c : Callable) (args : List Arg) (stamp : Nat) :
    (bound c args stamp).leading = c.leading ++ args := rfl

@[simp] theorem layers_bound (c : Callable) (args : List Arg) (stamp : Nat) :
    (bound c args stamp).layers = c.layers + 1 := rfl

@[simp] theorem arity_bound (c : Callable) (args : List Arg) (stamp : Nat) :
    (bound c args stamp).arity = c.arity := rfl

/-- What is bound to a callable, in whatever layers, is gone from the front of its signature. -/
theorem signature_eq : ∀ c : Callable,
    c.signature = c.root.signature.withoutLeading c.leading.length
  | .function _ | .builtin .. => rfl
  | .bound callee args _ => by
    rw [signature_bound, root_bound, leading_bound, List.length_append,
      Signature.withoutLeading_add, ← signature_eq callee]

theorem length_params (c : Callable) : c.signature.params.length = c.arity - c.leading.length := by
  rw [c.signature_eq]
  exact List.length_drop

/-- Whether the root of a callable gets as many arguments as it has parameters when the callable is
given some. -/
def checkCount (c : Callable) (given : Nat) : Except Cause Unit :=
  checkArity c.name c.arity (c.leading.length + given)

/-- As many arguments as the type of a callable has parameters are the right number, if no more were
bound than the root takes. -/
theorem checkCount_of_fits {c : Callable} (fits : c.leading.length ≤ c.arity) :
    c.checkCount c.signature.params.length = .ok () := by
  have count : c.arity = c.leading.length + c.signature.params.length := by
    rw [length_params]
    omega
  exact if_pos count

/-- A callable to which too many arguments are bound cannot be given the right number. -/
theorem checkCount_of_overfull {c : Callable} (overfull : c.arity < c.leading.length)
    (given : Nat) :
    c.checkCount given = .error (.argumentCount c.name c.arity (c.leading.length + given)) :=
  if_neg (by omega)

end Callable

/-! ## Calls -/

namespace Action

/-- What a call does when the arguments have been counted. -/
def enter [Host] (n : Nat) : Callable → List Arg → Position → Action Value
  | .bound callee bound _, args, p => enter n callee (bound ++ args) p
  | .builtin b _, args, p => do
    let bound ← attempt p ((← get).store.bindArgs b.params args)
    native b.native bound p
  | .function f, args, p => do
    let params ← bindParams p f.params args
    let flow ← inFrame { params := params } (execBlock n f.body)
    attempt p (flow.result f.ret)

/-- A call counts the arguments before it does anything else, and only once. -/
theorem call_counts [Host] (n : Nat) : ∀ (c : Callable) (args : List Arg) (p : Position),
    call (n + c.layers + 1) c args p = (do
      attempt p (c.checkCount args.length)
      enter n c args p)
  | .function f, args, p => by
    have count : (Callable.function f).checkCount args.length =
        checkArity f.name f.params.length args.length := by
      simp only [Callable.checkCount, Callable.arity, Callable.root, Callable.signature,
        Function.signature, Callable.leading, Callable.name, List.length_map, List.length_nil,
        Nat.zero_add]
    rw [count]
    simp only [call, Callable.layers, enter]
    rfl
  | .builtin b stamp, args, p => by
    have count : (Callable.builtin b stamp).checkCount args.length =
        checkArity b.name b.signature.params.length args.length := by
      simp only [Callable.checkCount, Callable.arity, Callable.root, Callable.signature,
        Callable.leading, Callable.name, List.length_nil, Nat.zero_add]
    rw [count]
    simp only [call, enter]
    rfl
  | .bound callee bound stamp, args, p => by
    have inner := call_counts n callee (bound ++ args) p
    have count : callee.checkCount (bound ++ args).length =
        (Callable.bound callee bound stamp).checkCount args.length := by
      simp only [Callable.checkCount, Callable.arity_bound, Callable.leading_bound,
        Callable.name_bound, List.length_append, Nat.add_assoc]
    rw [count] at inner
    simp only [Callable.layers_bound, enter]
    rw [← inner, ← Nat.add_assoc, call]

/-- A call that cannot go down through all layers reaches its bound. -/
theorem call_exhausted [Host] : ∀ (n : Nat) (c : Callable) (args : List Arg) (p : Position),
    n ≤ c.layers → call n c args p = exhausted
  | 0, _, _, _, _ => rfl
  | n + 1, .bound callee bound _, args, p, deep =>
    call_exhausted n callee (bound ++ args) p (Nat.le_of_succ_le_succ deep)
  | _ + 1, .function _, _, _, deep | _ + 1, .builtin _ _, _, _, deep =>
    absurd deep (Nat.not_succ_le_zero _)

/-! ## Parameters -/

variable {m m' : Machine}

/-- A variable that a parameter of a function type is bound to is of that type. -/
theorem bindParam_type {x : Param} {a : Arg} {p : Position} {w : View} {ret : Ty}
    {params : List Ty} (known : ∀ v, a = .view v → v.cell < m.store.size)
    (bound : bindParam x a p m = .ok w m') (declared : x.type = .func ret params) :
    w.name = x.name ∧ w.cell < m'.store.size ∧ (m'.store.get w.cell).type = .func ret params := by
  rw [bindParam_run] at bound
  cases taken : m.store.bindArg x a with
  | error cause => rw [taken] at bound; cases bound
  | ok b =>
    rw [taken] at bound
    obtain ⟨v, v', rfl, given, rfl⟩ | ⟨v, rfl, same, allowed, rfl⟩ := Store.bindArg_ok taken
    · dsimp only at bound
      rw [create_run] at bound
      cases bound
      dsimp only [Store.directView]
      rw [Store.get_create, Store.size_create]
      exact ⟨rfl, Nat.lt_succ_self _, declared⟩
    · cases bound
      refine ⟨rfl, known v rfl, ?_⟩
      -- Function types have the same shape only if they are equal.
      rw [declared] at same
      cases found : (m.store.get v.cell).type with
      | base b mutable => rw [found] at same; cases same
      | func ret' params' =>
        rw [found] at same
        exact (of_decide_eq_true same).symm

theorem bindParams_types {params : List Param} {args : List Arg} {p : Position}
    {views : List View} (known : m.store.Knows args) (arity : params.length = args.length)
    (bound : bindParams p params args m = .ok views m') :
    List.Forall₂ (fun (x : Param) w => ∀ ret types, x.type = .func ret types →
      w.name = x.name ∧ (m'.store.get w.cell).type = .func ret types) params views := by
  induction params generalizing args m views with
  | nil =>
    cases bound
    exact .nil
  | cons x xs inductionHypothesis =>
    cases args with
    | nil => cases arity
    | cons a as =>
      rw [bindParams_cons_run] at bound
      cases head : bindParam x a p m with
      | error e m₁ => rw [head] at bound; cases bound
      | ok w m₁ =>
        rw [head] at bound
        dsimp only at bound
        have kept : m.store.Grows m₁.store := by
          have kept : Machine.Keeps .closed m (Ending.machine (bindParam x a p m)) :=
            bindParam_keeps x a p
          rw [head] at kept
          exact kept.store
        cases tail : bindParams p xs as m₁ with
        | error e m₂ => rw [tail] at bound; cases bound
        | ok ws m₂ =>
          rw [tail] at bound
          cases bound
          have kept' : Leads (m₁.Keeps .closed) (bindParams p xs as) m₁ fun _ _ => True :=
            bindParams_keeps p xs as
          have grown : m₁.store.Grows m'.store := (kept'.ok tail).1.store
          -- Binding further parameters creates variables, and those that exist keep their types.
          refine .cons (fun ret types declared => ?_) ?_
          · have knownHead : ∀ v, a = .view v → v.cell < m.store.size :=
              fun v same => known v (same ▸ List.mem_cons_self)
            obtain ⟨name, existing, type⟩ := bindParam_type knownHead head declared
            exact ⟨name, (grown.type w.cell existing).trans type⟩
          · have knownTail : m.store.Knows as :=
              fun v member => known v (List.mem_cons_of_mem a member)
            exact inductionHypothesis (knownTail.mono kept) (Nat.succ.inj arity) tail

/-! ## Call expressions -/

theorem length_of_evalArgs [Host] {n : Nat} {es : List Expr} {args : List Arg}
    (evaluated : evalArgs n es m = .ok args m') : args.length = es.length := by
  induction n generalizing es args m with
  | zero => cases evaluated
  | succ n inductionHypothesis =>
    cases es with
    | nil => cases evaluated; rfl
    | cons e es =>
      simp only [evalArgs, bind_run] at evaluated
      cases head : evalArg n e m with
      | error e m₁ => rw [head] at evaluated; cases evaluated
      | ok a m₁ =>
        rw [head] at evaluated
        dsimp only at evaluated
        cases tail : evalArgs n es m₁ with
        | error e m₂ => rw [tail] at evaluated; cases evaluated
        | ok as m₂ =>
          rw [tail] at evaluated
          cases evaluated
          exact congrArg (· + 1) (inductionHypothesis tail)

/-- Calling a variable that holds a callable is calling the callable, when the arguments are
evaluated. -/
theorem eval_call_of_resolve [Host] {k : Nat} {x : String} {q p : Position} {es : List Expr}
    {args : List Arg} {w : View} {c : Callable} (evaluated : evalArgs (k + 2) es m = .ok args m')
    (means : m'.frame.resolve? x = some w) (holds : (m'.store.get w.cell).value = .callable c) :
    eval (k + 3) (.call (.name x q) es p) m = call (k + 2) c args p m' := by
  have callee : evalCallable (k + 2) (.name x q) m' = .ok c m' := by
    simp only [evalCallable, eval, bind_run, name_run, means, holds]
    rfl
  simp only [eval, bind_run, evaluated, callee]

end Action

/-! ## Sessions -/

section

variable {known : View → Prop} {m m' : Machine} {w : View} {ret : Ty} {types : List Ty}

/-- A variable of a function type holds a callable of that type. -/
theorem Grant.Presides.callable_of_func (presides : Grant.everything.Presides known m)
    (existing : w.cell < m.store.size) (declared : (m.store.get w.cell).type = .func ret types) :
    ∃ c, (m.store.get w.cell).value = .callable c ∧ c.signature = ⟨ret, types⟩ := by
  have typed := presides.store.typed w.cell existing
  rw [declared] at typed
  cases holds : (m.store.get w.cell).value with
  | callable c =>
    rw [holds] at typed
    exact ⟨c, rfl, of_decide_eq_true typed⟩
  | none | string _ | int _ | flt _ | bool _ => rw [holds] at typed; cases typed

theorem Callable.checkCount_eq {c : Callable} (signature : c.signature = ⟨ret, types⟩) :
    c.checkCount types.length =
      if c.leading.length ≤ c.arity then .ok ()
      else .error (.argumentCount c.name c.arity (c.leading.length + types.length)) := by
  split
  next fits =>
    have passes := Callable.checkCount_of_fits fits
    rwa [signature] at passes
  next overfull => exact Callable.checkCount_of_overfull (Nat.lt_of_not_le overfull) types.length

/-- Evaluating arguments changes neither what a name means nor the type of a variable. -/
theorem Grant.Presides.evalArgs [Host] (presides : Grant.everything.Presides known m) {n : Nat}
    {es : List Expr} {args : List Arg} (evaluated : Action.evalArgs n es m = .ok args m') :
    Grant.everything.Presides known m' ∧ m'.frame = m.frame ∧ m.store.Grows m'.store := by
  have turned : Action.Leads (Grant.everything.Turns m) (Action.evalArgs n es) m _ :=
    (Grant.everything.discipline.lawful n).evalArgs es m presides.toRules
  have kept : Action.Leads (m.Keeps .closed) (Action.evalArgs n es) m _ :=
    (surroundings.lawful n).evalArgs es m trivial
  exact ⟨presides.turns (turned.ok evaluated).1, (kept.ok evaluated).1.frame,
    (kept.ok evaluated).1.store⟩

end

open Rightflow.Action in
/-- In every state of every session, a variable of a function type holds a callable that is called
with as many arguments as the type has parameters: the arguments are counted once, before anything
else is done, and they are as many as the root takes unless too many were bound to the callable.  So
it is where a program calls a variable by its name, and a parameter of a function type is a variable
of that type. -/
theorem function_types_count_arguments [Host] :
    (∀ n c args p, call (n + c.layers + 1) c args p = (do
      attempt p (c.checkCount args.length)
      enter n c args p)) ∧
    (∀ known m w ret types, Reached known m → m.Has known w →
      (m.store.get w.cell).type = .func ret types →
        ∃ c, (m.store.get w.cell).value = .callable c ∧ c.checkCount types.length =
          if c.leading.length ≤ c.arity then .ok ()
          else .error (.argumentCount c.name c.arity (c.leading.length + types.length))) ∧
    (∀ known k x q es p m w ret types args m',
      Entered known (k + 3) (.eval (.call (.name x q) es p)) m →
      m.frame.resolve? x = some w → (m.store.get w.cell).type = .func ret types →
      es.length = types.length → evalArgs (k + 2) es m = .ok args m' →
        ∃ c, (m'.store.get w.cell).value = .callable c ∧
          eval (k + 3) (.call (.name x q) es p) m = call (k + 2) c args p m' ∧
          c.checkCount args.length =
            if c.leading.length ≤ c.arity then .ok ()
            else .error (.argumentCount c.name c.arity (c.leading.length + types.length))) ∧
    ∀ known k f args p m views m', Entered known k (.call (.function f) args p) m →
      f.params.length = args.length → bindParams p f.params args m = .ok views m' →
        List.Forall₂ (fun (x : Param) w => ∀ ret types, x.type = .func ret types →
          w.name = x.name ∧ (m'.store.get w.cell).type = .func ret types) f.params views := by
  have always : Grant.everything.since = 0 := rfl
  refine ⟨call_counts, fun known m w ret types reached has declared => ?_, ?_, ?_⟩
  · have presides := reached.presides always
    obtain ⟨c, holds, signature⟩ :=
      presides.callable_of_func (presides.covers_of_has has) declared
    exact ⟨c, holds, Callable.checkCount_eq signature⟩
  · intro known k x q es p m w ret types args m' entered means declared count evaluated
    have presides := (entered.stands always).machine
    have existing : w.cell < m.store.size := presides.covers_of_resolve? means
    -- The arguments come first; behind them the name still means the variable, of the same type.
    obtain ⟨presides', frame, grown⟩ := presides.evalArgs evaluated
    have declared' := (grown.type w.cell existing).trans declared
    obtain ⟨c, holds, signature⟩ :=
      presides'.callable_of_func (Nat.lt_of_lt_of_le existing grown.size) declared'
    refine ⟨c, holds, eval_call_of_resolve evaluated (frame ▸ means) holds, ?_⟩
    rw [length_of_evalArgs evaluated, count]
    exact Callable.checkCount_eq signature
  · intro known k f args p m views m' entered arity bound
    have held := (List.forall_mem_cons.mp (entered.stands always).held).2
    exact bindParams_types (Grant.knows_of_allowed held) arity bound

/-- A function that takes a number and returns it. -/
def identity : Function :=
  ⟨"identity", .base .int false, [⟨"x", .base .int false⟩], [.giveBack (.name "x" .start) .start],
    .start⟩

/-- A function that takes a function, and returns what that one does. -/
def apply : Function :=
  ⟨"apply", .base .int false, [⟨"g", .func (.base .int false) []⟩],
    [.giveBack (.call (.name "g" .start) [] .start) .start], .start⟩

/-- A main function that declares `(7) ->> identity => [int::] f` and returns `(f) -> apply`. -/
def bindingMain : Function :=
  ⟨"main", .base .int false, [],
    [.assign ⟨.bind (.name "identity" .start) [.literal (.int 7) .start] .start,
        some (.func (.base .int false) []), "f", .start⟩,
      .giveBack (.call (.name "apply" .start) [.name "f" .start] .start) .start], .start⟩

/-- The type of `f` and of `g` says that nothing is left to give, and so it is for the call. -/
theorem bindingMain_counts_arguments :
    Ending.result (Action.run 20 [identity, apply, bindingMain] .standard) = .ok 7 ∧
    (∃ m m' c, Entered (fun _ => False) 10 (.eval (.call (.name "g" .start) [] .start)) m ∧
      Action.evalArgs 9 [] m = .ok [] m' ∧ (m'.store.get 0).value = .callable c ∧
      c.leading.length = 1 ∧ c.arity = 1 ∧ c.checkCount 0 = .ok ()) ∧
    ∃ (m : Machine) (w : View),
      Entered (fun _ => False) 14 (.call (.function apply) [.view ⟨0, "f", false⟩] .start) m ∧
      w.name = "g" ∧ (m.store.get w.cell).type = .func (.base .int false) [] := by
  have applied : Entered (fun _ => False) 14
      (.call (.function apply) [.view ⟨0, "f", false⟩] .start) _ :=
    .during (n := 20) (r := .run [identity, apply, bindingMain]) (.begin {}) nofun (.head _)
      (.inside (.head _) (.inside (.head _) (.inside (.tail _ (.head _)) (.inside (.head _)
        (.inside (.head _) (.inside (.tail _ (.tail _ (.head _))) (.here ..)))))))
  have called : Entered (fun _ => False) 10 (.eval (.call (.name "g" .start) [] .start)) _ :=
    .during (n := 20) (r := .run [identity, apply, bindingMain]) (.begin {}) nofun (.head _)
      (.inside (.head _) (.inside (.head _) (.inside (.tail _ (.head _)) (.inside (.head _)
        (.inside (.head _) (.inside (.tail _ (.tail _ (.head _))) (.inside (.head _)
          (.inside (.head _) (.inside (.head _) (.inside (.head _) (.here ..)))))))))))
  refine ⟨by rfl, ?_, ?_⟩
  · obtain ⟨c, holds, -, counts⟩ := function_types_count_arguments.2.2.1 _ 7 "g" .start [] .start _
      ⟨0, "g", false⟩ (.base .int false) [] [] _ called rfl rfl rfl rfl
    refine ⟨_, _, c, called, rfl, holds, ?_⟩
    obtain ⟨c', holds', counts'⟩ := function_types_count_arguments.2.1 _ _ ⟨0, "g", false⟩
      (.base .int false) [] (.entering called) (.inr (.inl ⟨_, .head _, .head _⟩)) rfl
    cases holds
    cases holds'
    exact ⟨rfl, rfl, counts'⟩
  · have views := function_types_count_arguments.2.2.2 _ 14 apply [.view ⟨0, "f", false⟩] .start _
      [⟨0, "g", false⟩] _ applied rfl rfl
    obtain ⟨parameter, -⟩ := List.forall₂_cons.mp views
    exact ⟨_, ⟨0, "g", false⟩, applied, parameter _ _ rfl⟩

/-- A function that takes nothing. -/
def nullary : Function :=
  ⟨"nullary", .base .int false, [], [.giveBack (.literal (.int 7) .start) .start], .start⟩

/-- A main function that declares `(1) ->> nullary => [int::] f` and returns `() -> f`. -/
def overfullMain : Function :=
  ⟨"main", .base .int false, [],
    [.assign ⟨.bind (.name "nullary" .start) [.literal (.int 1) .start] .start,
        some (.func (.base .int false) []), "f", .start⟩,
      .giveBack (.call (.name "f" .start) [] .start) .start], .start⟩

/-- The type of `f` says that nothing is left to give, but the call of `f` with nothing fails, as
one argument too many was bound to what `f` holds. -/
theorem overfullMain_miscounts_arguments :
    (∃ m w, Entered (fun _ => False) 15 (.eval (.call (.name "f" .start) [] .start)) m ∧
      m.frame.resolve? "f" = some w ∧ (m.store.get w.cell).type = .func (.base .int false) [] ∧
      Ending.result (Action.eval 15 (.call (.name "f" .start) [] .start) m) =
        .error (.fault (.located .start (.argumentCount "nullary" 0 1)))) ∧
    Ending.result (Action.run 20 [nullary, overfullMain] .standard) =
      .error (.fault (.located .start (.argumentCount "nullary" 0 1))) := by
  have entered : Entered (fun _ => False) 15 (.eval (.call (.name "f" .start) [] .start)) _ :=
    .during (n := 20) (r := .run [nullary, overfullMain]) (.begin {}) nofun (.head _)
      (.inside (.head _) (.inside (.head _) (.inside (.tail _ (.head _)) (.inside (.head _)
        (.inside (.head _) (.here ..))))))
  exact ⟨⟨_, ⟨0, "f", false⟩, entered, rfl, rfl, rfl⟩, by rfl⟩

end Rightflow
