import Rightflow.Proofs.CallEffects
import Rightflow.Proofs.Flattening

/-!
# Operations that fail leave everything as it was

A call prepares its callee and then runs it (`call_prepares`).  Preparing counts the arguments, goes
down to the root, and binds the arguments to the parameters there, one after the other.  It fails
exactly if the count is wrong or one of the arguments, those bound earlier included, is refused by
its parameter when all before it have been taken (`prepare_eq_error_iff`).  What has been taken by
then is new variables, which is all that is left of it: the frame, the frames of the callers, the
output and the variables that existed are as they were (`failing_operations_leave_no_trace`).  So
they are where a declaration or an assignment fails.
-/

namespace Rightflow

/-! ## Arguments that are refused -/

namespace Store

variable {s : Store} {x : Param} {xs : List Param} {a : Arg} {as : List Arg} {cause : Cause}

/-- Why a parameter does not take an argument. -/
inductive Refuses (s : Store) (x : Param) : Arg → Cause → Prop
  | otherType {w : View} (other : x.type.sameShape (s.get w.cell).type = false) :
      Refuses s x (.view w) (.referenceType x.name x.type (s.get w.cell).type)
  | immutable {w : View} (same : x.type.sameShape (s.get w.cell).type = true)
      (wanted : x.type.isMutable = true) (forbidden : w.mutable = false) :
      Refuses s x (.view w) (.immutableReference w.name)
  | cast {v : Value} {cause : Cause} (undefined : v.cast x.type = .error cause) :
      Refuses s x (.value v) cause

theorem bindArg_eq_error_iff : s.bindArg x a = .error cause ↔ s.Refuses x a cause := by
  constructor
  · intro failed
    cases a with
    | value v =>
      change (v.cast x.type).map Arg.value = .error cause at failed
      cases given : v.cast x.type with
      | ok w => rw [given] at failed; cases failed
      | error reason => rw [given] at failed; cases failed; exact .cast given
    | view w =>
      unfold bindArg at failed
      dsimp only at failed
      split at failed
      next other => cases failed; exact .otherType (by simpa using other)
      next same =>
        split at failed
        next forbidden =>
          cases failed
          obtain ⟨wanted, forbidden⟩ := Bool.and_eq_true_iff.1 forbidden
          exact .immutable (by simpa using same) wanted (by simpa using forbidden)
        next => cases failed
  · rintro (other | ⟨same, wanted, forbidden⟩ | undefined)
    · simp [bindArg, other]
    · simp [bindArg, same, wanted, forbidden]
    · simp [bindArg, undefined, Except.map]

/-- One of some arguments is refused by its parameter, and those before it are taken. -/
def RefusesOneOf (s : Store) (params : List Param) (args : List Arg) (cause : Cause) : Prop :=
  ∃ before x a after, params.zip args = before ++ (x, a) :: after ∧
    (∀ pair ∈ before, ∃ b, s.bindArg pair.1 pair.2 = .ok b) ∧ s.Refuses x a cause

theorem refusesOneOf_cons_iff :
    s.RefusesOneOf (x :: xs) (a :: as) cause ↔
      s.Refuses x a cause ∨ (∃ b, s.bindArg x a = .ok b) ∧ s.RefusesOneOf xs as cause := by
  unfold RefusesOneOf
  rw [List.zip_cons_cons]
  constructor
  · rintro ⟨before, y, b, after, cut, taken, refused⟩
    -- The first pair is the one that is refused or one of those before it.
    cases before with
    | nil =>
      cases cut
      exact .inl refused
    | cons pair before =>
      rw [List.cons_append, List.cons.injEq] at cut
      obtain ⟨rfl, cut⟩ := cut
      exact .inr ⟨taken _ List.mem_cons_self, before, y, b, after, cut,
        fun pair member => taken pair (List.mem_cons_of_mem _ member), refused⟩
  · rintro (refused | ⟨head, before, y, b, after, cut, taken, refused⟩)
    · exact ⟨[], x, a, _, rfl, nofun, refused⟩
    · refine ⟨(x, a) :: before, y, b, after, by rw [cut]; rfl, ?_, refused⟩
      rintro pair (_ | ⟨_, member⟩)
      · exact head
      · exact taken pair member

theorem bindArgs_cons_eq_error_iff :
    s.bindArgs (x :: xs) (a :: as) = .error cause ↔
      s.bindArg x a = .error cause ∨
        (∃ b, s.bindArg x a = .ok b) ∧ s.bindArgs xs as = .error cause := by
  rw [bindArgs]
  cases s.bindArg x a with
  | error reason =>
    change Except.error reason = .error cause ↔ _
    simp
  | ok b =>
    cases s.bindArgs xs as with
    | error reason =>
      change Except.error reason = .error cause ↔ _
      simp
    | ok rest =>
      change Except.ok (b :: rest) = .error cause ↔ _
      simp

/-- Binding fails at the first argument that is refused. -/
theorem bindArgs_eq_error_iff {params : List Param} {args : List Arg} :
    s.bindArgs params args = .error cause ↔ s.RefusesOneOf params args cause := by
  induction params generalizing args with
  | nil => exact iff_of_false nofun fun ⟨_, _, _, _, cut, _⟩ => by simp at cut
  | cons x xs inductionHypothesis =>
    cases args with
    | nil => exact iff_of_false nofun fun ⟨_, _, _, _, cut, _⟩ => by simp at cut
    | cons a as =>
      rw [bindArgs_cons_eq_error_iff, refusesOneOf_cons_iff, bindArg_eq_error_iff,
        inductionHypothesis]

end Store

/-! ## Machines -/

/-- A machine is as another one was, but for new variables. -/
structure Machine.Spared (m m' : Machine) : Prop where
  around : m' = { m with store := m'.store }
  size : m.store.size ≤ m'.store.size
  get : ∀ cell < m.store.size, m'.store.get cell = m.store.get cell

namespace Machine.Spared

variable {m m₁ m₂ : Machine}

theorem refl (m : Machine) : m.Spared m := ⟨rfl, Nat.le_refl _, fun _ _ => rfl⟩

theorem trans (first : m.Spared m₁) (second : m₁.Spared m₂) : m.Spared m₂ where
  around := by rw [second.around, first.around]
  size := Nat.le_trans first.size second.size
  get cell existed := by
    rw [second.get cell (Nat.lt_of_lt_of_le existed first.size), first.get cell existed]

theorem create (m : Machine) (x : Variable) :
    m.Spared { m with store := (m.store.create x).2 } where
  around := rfl
  size := by simp
  get cell existed := Store.get_create_of_lt _ _ existed

end Machine.Spared

theorem Frame.innermost_withScope (f : Frame) : f.withScope.innermost = f.innermost := by
  unfold withScope
  split
  next none => simp [innermost, pushScope, none]
  next => rfl

theorem Ending.result_eq_error_iff {α : Type} {ending : Ending α} {halt : Halt Fault} :
    Ending.result ending = .error halt ↔ ∃ m, ending = .error halt m := by
  cases ending with
  | ok x m => exact iff_of_false nofun nofun
  | error e m =>
    constructor
    · rintro ⟨⟩
      exact ⟨m, rfl⟩
    · rintro ⟨_, ⟨⟩⟩
      rfl

/-! ## Callees -/

namespace Callable

/-- The same callable, but for what its root does. -/
def doing (body : Block) (native : Native) : Callable → Callable
  | .function f => .function { f with body := body }
  | .builtin b stamp => .builtin { b with native := native } stamp
  | .bound callee args stamp => .bound (callee.doing body native) args stamp

section Doing

variable (body : Block) (native : Native)

theorem name_doing : ∀ c : Callable, (c.doing body native).name = c.name
  | .function _ | .builtin .. => rfl
  | .bound callee _ _ => callee.name_doing

theorem arity_doing : ∀ c : Callable, (c.doing body native).arity = c.arity
  | .function _ | .builtin .. => rfl
  | .bound callee _ _ => callee.arity_doing

theorem layers_doing : ∀ c : Callable, (c.doing body native).layers = c.layers
  | .function _ | .builtin .. => rfl
  | .bound callee _ _ => congrArg (· + 1) callee.layers_doing

theorem leading_doing : ∀ c : Callable, (c.doing body native).leading = c.leading
  | .function _ | .builtin .. => rfl
  | .bound callee args _ => congrArg (· ++ args) callee.leading_doing

theorem checkCount_doing (c : Callable) (given : Nat) :
    (c.doing body native).checkCount given = c.checkCount given := by
  simp only [checkCount, name_doing, arity_doing, leading_doing]

end Doing

/-- Why a call does not come to run anything. -/
inductive Refuses (c : Callable) (s : Store) (args : List Arg) : Cause → Prop
  | count (other : c.arity ≠ c.leading.length + args.length) :
      Refuses c s args (.argumentCount c.name c.arity (c.leading.length + args.length))
  | argument {cause : Cause} (counted : c.arity = c.leading.length + args.length)
      (refused : s.RefusesOneOf c.params (c.leading ++ args) cause) : Refuses c s args cause

end Callable

/-- A root with its arguments bound. -/
inductive Callee
  | function (f : Function) (params : List View)
  | native (b : Builtin) (args : List Arg)

/-- The same root, but for what it does. -/
def Callee.doing (body : Block) (native : Native) : Callee → Callee
  | .function f params => .function { f with body := body } params
  | .native b args => .native { b with native := native } args

namespace Action

/-- Binds the arguments of a call to the parameters of the root. -/
def bindRoot : Callable → List Arg → Position → Action Callee
  | .bound callee bound _, args, p => bindRoot callee (bound ++ args) p
  | .builtin b _, args, p => do
    let bound ← attempt p ((← get).store.bindArgs b.params args)
    return .native b bound
  | .function f, args, p => do
    let params ← bindParams p f.params args
    return .function f params

/-- What a call does before anything of the callee runs. -/
def prepare (c : Callable) (args : List Arg) (p : Position) : Action Callee := do
  attempt p (c.checkCount args.length)
  bindRoot c args p

/-- What is left of a call then: for a function, a frame and the body in it. -/
def perform [Host] (n : Nat) (p : Position) : Callee → Action Value
  | .function f params => do
    let flow ← inFrame { params := params } (execBlock n f.body)
    attempt p (flow.result f.ret)
  | .native b args => native b.native args p

theorem enter_binds [Host] (n : Nat) : ∀ (c : Callable) (args : List Arg) (p : Position),
    enter n c args p = bindRoot c args p >>= perform n p
  | .function f, args, p => by simp only [enter, bindRoot, bind_assoc, pure_bind, perform]
  | .builtin b _, args, p => by simp only [enter, bindRoot, bind_assoc, pure_bind, perform]
  | .bound callee bound _, args, p => enter_binds n callee (bound ++ args) p

/-- A call prepares its callee and performs it. -/
theorem call_prepares [Host] (n : Nat) (c : Callable) (args : List Arg) (p : Position) :
    call (n + c.layers + 1) c args p = prepare c args p >>= perform n p := by
  rw [call_counts, prepare, bind_assoc]
  simp only [enter_binds]

/-! ## Preparing -/

variable {c : Callable} {args : List Arg} {p : Position} {m : Machine} {halt : Halt Fault}

theorem prepare_run :
    prepare c args p m =
      match c.checkCount args.length with
      | .error cause => .error (.fault (.located p cause)) m
      | .ok _ => bindRoot c args p m := by
  rw [prepare, bind_run, attempt_run]
  cases c.checkCount args.length <;> rfl

theorem bindRoot_builtin_run (b : Builtin) (stamp : Nat) :
    bindRoot (.builtin b stamp) args p m =
      match m.store.bindArgs b.params args with
      | .error cause => .error (.fault (.located p cause)) m
      | .ok bound => .ok (.native b bound) m := by
  change (attempt p (m.store.bindArgs b.params args) >>= fun bound =>
    pure (Callee.native b bound)) m = _
  rw [bind_run, attempt_run]
  cases m.store.bindArgs b.params args <;> rfl

theorem bindRoot_function_run (f : Function) :
    bindRoot (.function f) args p m =
      match bindParams p f.params args m with
      | .error e m' => .error e m'
      | .ok params m' => .ok (.function f params) m' := by
  rw [bindRoot, bind_run]
  cases bindParams p f.params args m <;> rfl

/-- Binding fails exactly if an argument is refused. -/
theorem bindRoot_fails_iff : ∀ (c : Callable) (args : List Arg),
    m.store.Knows (c.leading ++ args) →
      (Ending.result (bindRoot c args p m) = .error halt ↔
        ∃ cause, halt = .fault (.located p cause) ∧
          m.store.bindArgs c.params (c.leading ++ args) = .error cause)
  | .function f, args, known => by
    -- A value that is taken makes the store grow before the next argument is looked at, which does
    -- not change what becomes of that one.
    obtain ⟨bound, views, s, -, -, ⟨ran, taken⟩ | ⟨cause, ran, refused⟩⟩ :=
      bindParams_adopts p f.params args m known
    · rw [bindRoot_function_run, ran]
      exact iff_of_false nofun fun ⟨cause, _, failed⟩ => nomatch taken.symm.trans failed
    · rw [bindRoot_function_run, ran]
      constructor
      · rintro ⟨⟩
        exact ⟨cause, rfl, refused⟩
      · rintro ⟨_, rfl, failed⟩
        cases refused.symm.trans failed
        rfl
  | .builtin b stamp, args, _ => by
    rw [bindRoot_builtin_run]
    change _ ↔ ∃ cause, _ ∧ m.store.bindArgs b.params args = _
    cases m.store.bindArgs b.params args with
    | ok bound => exact iff_of_false nofun fun ⟨_, _, failed⟩ => nomatch failed
    | error cause =>
      constructor
      · rintro ⟨⟩
        exact ⟨cause, rfl, rfl⟩
      · rintro ⟨_, rfl, ⟨⟩⟩
        rfl
  | .bound callee bound _, args, known => by
    -- Bound arguments are put in front, and nothing is looked at on the way to the root.
    rw [Callable.leading_bound, List.append_assoc] at known ⊢
    exact bindRoot_fails_iff callee (bound ++ args) known

/-- Preparing a call fails exactly if the call is refused. -/
theorem prepare_fails_iff (known : m.store.Knows (c.leading ++ args)) :
    Ending.result (prepare c args p m) = .error halt ↔
      ∃ cause, halt = .fault (.located p cause) ∧ c.Refuses m.store args cause := by
  rw [prepare_run]
  cases counted : c.checkCount args.length with
  | error reason =>
    obtain ⟨other, rfl⟩ := checkArity_eq_error_iff.1 counted
    constructor
    · rintro ⟨⟩
      exact ⟨_, rfl, .count other⟩
    · rintro ⟨_, rfl, other | ⟨same, _⟩⟩
      · rfl
      · exact absurd same other
  | ok _ =>
    have same : c.arity = c.leading.length + args.length := by
      by_contra other
      cases counted.symm.trans (checkArity_eq_error_iff.2 ⟨other, rfl⟩)
    rw [bindRoot_fails_iff c args known]
    simp only [Store.bindArgs_eq_error_iff]
    refine exists_congr fun cause => and_congr_right fun _ => ⟨.argument same, ?_⟩
    rintro (other | ⟨_, refused⟩)
    · exact absurd same other
    · exact refused

theorem bindParam_spares (x : Param) (a : Arg) :
    m.Spared (Ending.machine (bindParam x a p m)) := by
  rw [bindParam_run]
  cases m.store.bindArg x a with
  | error cause => exact .refl m
  | ok b =>
    cases b with
    | view w => exact .refl m
    | value v => exact .create m _

theorem bindParams_spares (params : List Param) (args : List Arg) :
    m.Spared (Ending.machine (bindParams p params args m)) := by
  induction params generalizing args m with
  | nil => exact .refl m
  | cons x xs inductionHypothesis =>
    cases args with
    | nil => exact .refl m
    | cons a as =>
      rw [bindParams_cons_run]
      have first := bindParam_spares (m := m) (p := p) x a
      cases head : bindParam x a p m with
      | error e m₁ =>
        rw [head] at first
        exact first
      | ok w m₁ =>
        rw [head] at first
        have rest := inductionHypothesis as (m := m₁)
        dsimp only
        cases tail : bindParams p xs as m₁ <;> rw [tail] at rest <;> exact first.trans rest

theorem bindRoot_spares : ∀ (c : Callable) (args : List Arg),
    m.Spared (Ending.machine (bindRoot c args p m))
  | .function f, args => by
    rw [bindRoot_function_run]
    have spared := bindParams_spares (m := m) (p := p) f.params args
    cases bound : bindParams p f.params args m <;> rw [bound] at spared <;> exact spared
  | .builtin b stamp, args => by
    rw [bindRoot_builtin_run]
    cases m.store.bindArgs b.params args <;> exact .refl m
  | .bound callee bound _, args => bindRoot_spares callee (bound ++ args)

/-- However preparing a call ends, it spares the machine. -/
theorem prepare_spares (c : Callable) (args : List Arg) (p : Position) (m : Machine) :
    m.Spared (Ending.machine (prepare c args p m)) := by
  rw [prepare_run]
  cases c.checkCount args.length with
  | error cause => exact .refl m
  | ok _ => exact bindRoot_spares c args

theorem bindRoot_doing (body : Block) (native : Native) (p : Position) :
    ∀ (c : Callable) (args : List Arg),
      bindRoot (c.doing body native) args p = Callee.doing body native <$> bindRoot c args p
  | .function f, args => by
    change (bindParams p f.params args >>= fun params => pure (Callee.function _ params)) = _
    simp only [bindRoot, map_eq_pure_bind, bind_assoc, pure_bind, Callee.doing]
  | .builtin b _, args => by
    change (do
      let bound ← attempt p ((← get).store.bindArgs b.params args)
      return Callee.native { b with native := native } bound) = _
    simp only [bindRoot, map_eq_pure_bind, bind_assoc, pure_bind, Callee.doing]
  | .bound callee bound _, args => bindRoot_doing body native p callee (bound ++ args)

/-- Preparing a call has nothing to do with what the root does. -/
theorem prepare_doing (body : Block) (native : Native) (c : Callable) (args : List Arg)
    (p : Position) :
    prepare (c.doing body native) args p = Callee.doing body native <$> prepare c args p := by
  rw [prepare, prepare, bindRoot_doing, Callable.checkCount_doing]
  simp only [map_eq_pure_bind, bind_assoc]

theorem call_of_prepare_fails [Host] {m' : Machine} (failed : prepare c args p m = .error halt m')
    (n : Nat) : call (n + c.layers + 1) c args p m = .error halt m' := by
  rw [call_prepares, bind_run, failed]

theorem prepare_doing_fails {m' : Machine} (failed : prepare c args p m = .error halt m')
    (body : Block) (native : Native) :
    prepare (c.doing body native) args p m = .error halt m' := by
  rw [prepare_doing, map_eq_pure_bind, bind_run, failed]

/-! ## Declarations and assignments -/

theorem declare_fails {x : String} {t : Ty} {v : Value} {m' : Machine}
    (failed : declare x t v p m = .error halt m') :
    m' = m ∨ m' = { m with frame := m.frame.withScope } := by
  rw [declare_run] at failed
  split at failed
  · cases failed
    exact .inl rfl
  · split at failed
    · cases failed
      exact .inr rfl
    · cases given : v.cast t with
      | ok w => rw [given] at failed; cases failed
      | error cause =>
        rw [given] at failed
        cases failed
        exact .inr rfl

theorem reassign_fails {x : String} {v : Value} {m' : Machine}
    (failed : reassign x v p m = .error halt m') : m' = m := by
  rw [reassign_run] at failed
  cases meant : m.frame.resolve? x with
  | none =>
    rw [meant] at failed
    cases failed
    rfl
  | some w =>
    rw [meant] at failed
    dsimp only at failed
    split at failed
    · cases given : v.cast (m.store.get w.cell).type with
      | ok w => rw [given] at failed; cases failed
      | error cause =>
        rw [given] at failed
        cases failed
        rfl
    · cases failed
      rfl

end Action

open Rightflow.Action in
/-- What fails changes nothing.  A declaration that fails may leave a scope behind; all variables
are the same, and names mean what they meant and are as free as they were.  An assignment that fails
leaves everything as it was.

A call is prepared and then performed.  If preparing fails, so does the call, as it does with
whatever other body in its place, and all that has happened is that there may be new variables: the
frame and those of the callers, the output, the functions and the variables that existed are as they
were.  Given views of variables that exist, preparing fails exactly if the count of arguments is
wrong or one of them, those bound to the callable included, is refused by its parameter at the
root. -/
theorem failing_operations_leave_no_trace [Host] (m : Machine) :
    (∀ x t v p halt m', declare x t v p m = .error halt m' →
      m' = { m with frame := m'.frame } ∧ (∀ y, m'.frame.resolve? y = m.frame.resolve? y) ∧
        ∀ y, m'.frame.declares y = m.frame.declares y) ∧
    (∀ x v p halt m', reassign x v p m = .error halt m' → m' = m) ∧
    ∀ c args p,
      (∀ n, call (n + c.layers + 1) c args p = prepare c args p >>= perform n p) ∧
      (∀ halt m', prepare c args p m = .error halt m' → m.Spared m' ∧
        ∀ n, call (n + c.layers + 1) c args p m = .error halt m' ∧
          ∀ body native,
            call (n + c.layers + 1) (c.doing body native) args p m = .error halt m') ∧
      (m.store.Knows (c.leading ++ args) → ∀ halt,
        (∃ m', prepare c args p m = .error halt m') ↔
          ∃ cause, halt = .fault (.located p cause) ∧ c.Refuses m.store args cause) := by
  refine ⟨fun x t v p halt m' failed => ?_, fun x v p halt m' => reassign_fails,
    fun c args p => ⟨fun n => call_prepares n c args p, fun halt m' failed => ?_,
      fun known halt => ?_⟩⟩
  · obtain rfl | rfl := declare_fails failed
    · exact ⟨rfl, fun _ => rfl, fun _ => rfl⟩
    · refine ⟨rfl, fun y => ?_, fun y => ?_⟩
      · simp only [Frame.resolve?, Frame.views_withScope]
      · simp only [Frame.declares, Frame.innermost_withScope]
  · have spared := prepare_spares c args p m
    rw [failed] at spared
    refine ⟨spared, fun n => ⟨call_of_prepare_fails failed n, fun body native => ?_⟩⟩
    rw [← Callable.layers_doing body native c]
    exact call_of_prepare_fails (prepare_doing_fails failed body native) n
  · rw [← prepare_fails_iff known]
    exact Ending.result_eq_error_iff.symm

/-- The second of two arguments is refused, and all that the first one has left behind is a variable
for the parameter that took it. -/
theorem refusal_after_a_bound_argument :
    let x : View := ⟨0, "x", false⟩
    let m : Machine :=
      { store := { cells := #[⟨"x", .base .int false, .int 7⟩] }, frame := { params := [x] } }
    let f : Function := ⟨"f", .base .int false,
      [⟨"n", .base .int false⟩, ⟨"r", .base .int true⟩], [], .start⟩
    let c : Callable := .bound (.function f) [.value (.bool true)] 0
    let n : Variable := ⟨"n", .base .int false, .int 1⟩
    let after : Machine := { m with store := (m.store.create n).2 }
    Action.declare "y" (.base .int true) (.string "") .start m =
      .error (.fault (.located .start (.noCast .string (.base .int true))))
        { m with frame := m.frame.pushScope } ∧
    (∃ m', Action.reassign "x" (.int 1) .start m =
      .error (.fault (.located .start (.immutableAssignment "x"))) m' ∧ m' = m) ∧
    Action.prepare c [.view x] .start m =
      .error (.fault (.located .start (.immutableReference "x"))) after ∧
    m.store.Knows (c.leading ++ [.view x]) ∧
    c.Refuses m.store [.view x] (.immutableReference "x") ∧
    (∀ y, m.frame.pushScope.resolve? y = m.frame.resolve? y) ∧ m.Spared after ∧
    Action.call 2 c [.view x] .start m =
      .error (.fault (.located .start (.immutableReference "x"))) after := by
  intro x m f c n after
  have declared : Action.declare "y" (.base .int true) (.string "") .start m =
      .error (.fault (.located .start (.noCast .string (.base .int true))))
        { m with frame := m.frame.pushScope } := rfl
  have reassigned : Action.reassign "x" (.int 1) .start m =
      .error (.fault (.located .start (.immutableAssignment "x"))) m := rfl
  have prepared : Action.prepare c [.view x] .start m =
      .error (.fault (.located .start (.immutableReference "x"))) after := rfl
  have known : m.store.Knows (c.leading ++ [.view x]) := by
    rintro w (_ | ⟨_, _ | ⟨_, ⟨⟩⟩⟩)
    exact Nat.zero_lt_one
  -- The boolean is bound to the first parameter before the second one refuses the variable.
  obtain ⟨declaration, assignment, calls⟩ := failing_operations_leave_no_trace m
  obtain ⟨-, failure, refusal⟩ := calls c [.view x] .start
  obtain ⟨_, ⟨⟩, refused⟩ := (refusal known _).1 ⟨after, prepared⟩
  obtain ⟨spared, called⟩ := failure _ _ prepared
  obtain ⟨-, means, -⟩ := declaration _ _ _ _ _ _ declared
  exact ⟨declared, ⟨m, reassigned, assignment _ _ _ _ _ reassigned⟩, prepared, known, refused, means,
    spared, (called 0).1⟩

end Rightflow
