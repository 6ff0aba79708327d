import Rightflow.Proofs.Endings
import Rightflow.Proofs.Likeness
import Rightflow.Session

/-!
# Parameters are bound hygienically

A program with other names for the parameters of its functions is run beside the program as it was.
Both runs do the same step by step, up to the names that their faults tell: `Setting.Relates`
compares their machines, and `Setting.Mirrors` their actions.

The two machines have alike functions and stores and the same sink.  The frame of the second one is
that of the first one with all its names changed, by the renaming of the function that runs; so a
name means in it what the name that it was made from means in the other frame.  A name that has no
meaning in the frame is no parameter, and so it has not been changed.  With each call comes another
renaming, while the frames of the callers wait.

What a view is called does not matter to a function that it is passed to: the parameter that it is
bound to gets a view of its own name.
-/

namespace Rightflow

variable {α β : Type}

/-- A fault without the name of a variable or a parameter that is there. -/
def Fault.unnamed : Fault → Fault
  | .located p cause => .located p cause.unnamed
  | .missingMain => .missingMain

/-! ## Flows -/

inductive Flow.Alike : Flow → Flow → Prop
  | normal : Flow.Alike .normal .normal
  | returned {v w : Value} : v.Alike w → Flow.Alike (.returned v) (.returned w)

theorem Flow.Alike.result {flow flow' : Flow} (alike : flow.Alike flow') (ret : Ty) :
    OutcomesAlike Value.Alike (flow.result ret) (flow'.result ret) := by
  unfold Flow.result
  split
  · exact .ok (.refl .none)
  · cases alike with
    | normal => exact Value.default_alike ret
    | returned same => exact same.cast ret

theorem checkArity_alike (x : String) (expected found : Nat) :
    OutcomesAlike (fun _ _ => expected = found) (checkArity x expected found)
      (checkArity x expected found) := by
  unfold checkArity
  split
  next same => exact .ok same
  next => exact .error rfl

/-! ## Two runs -/

/-- What two runs do not have in common at a point: how names are changed in the function that runs,
and the frames of its callers. -/
structure Setting where
  names : Renaming
  callers : List Frame
  callers' : List Frame

namespace Setting

/-- Two machines in a setting. -/
structure Relates (S : Setting) (m m' : Machine) : Prop where
  functions : m.functions.Alike m'.functions
  store : m.store.Alike m'.store
  sink : m'.sink = m.sink
  frame : m'.frame = m.frame.rename S.names
  /-- What is bound is found in the frame. -/
  bound : ∀ z ∈ S.names.bound, z ∈ m.frame.params.map (·.name)
  callers : m.callers = S.callers
  callers' : m'.callers = S.callers'

/-- Two endings in a setting: with related results, or with the same fault up to names. -/
inductive Ends (S : Setting) (P : α → α → Prop) : Ending α → Ending α → Prop
  | ok {a b : α} {m m' : Machine} : P a b → S.Relates m m' → Ends S P (.ok a m) (.ok b m')
  | error {e e' : Halt Fault} {m m' : Machine} : e'.map Fault.unnamed = e.map Fault.unnamed →
    S.Relates m m' → Ends S P (.error e m) (.error e' m')

/-- The second action does in other names what the first one does. -/
def Mirrors (S : Setting) (P : α → α → Prop) (action action' : Action α) : Prop :=
  ∀ m m', S.Relates m m' → S.Ends P (action m) (action' m')

variable {S : Setting} {m m' : Machine}

namespace Relates

variable (related : S.Relates m m')

include related

/-- A name means the same in both machines, and is not changed if it means nothing. -/
theorem resolve? {z : String} (admitted : S.names.Admits z) :
    m'.frame.resolve? (S.names.apply z) = (m.frame.resolve? z).map (View.rename S.names) ∧
      (m.frame.resolve? z = none → S.names.apply z = z) := by
  refine ⟨related.frame ▸ m.frame.resolve?_rename S.names z, fun unknown => ?_⟩
  refine admitted.resolve_right fun isBound => ?_
  obtain ⟨w, member, name⟩ := List.mem_map.1 (related.bound z isBound)
  have absent := List.find?_eq_none.1 unknown w (List.mem_append_right _ member)
  exact absent (decide_eq_true name)

theorem withStore {s s' : Store} (alike : s.Alike s') :
    S.Relates { m with store := s } { m' with store := s' } :=
  { related with store := alike }

theorem withSink (sink : Sink) : S.Relates { m with sink := sink } { m' with sink := sink } :=
  { related with sink := rfl }

theorem withFrame (change change' : Frame → Frame)
    (renamed : ∀ f : Frame, change' (f.rename S.names) = (change f).rename S.names)
    (params : ∀ f : Frame, (change f).params = f.params) :
    S.Relates { m with frame := change m.frame } { m' with frame := change' m'.frame } := by
  refine { related with frame := ?_, bound := ?_ }
  · dsimp only
    rw [related.frame, renamed]
  · dsimp only
    rw [params]
    exact related.bound

end Relates

/-- A machine beside itself. -/
theorem relates_self (m : Machine) : (Setting.mk .identity m.callers m.callers).Relates m m :=
  ⟨.refl _, .refl _, rfl, m.frame.rename_identity.symm, nofun, rfl, rfl⟩

theorem Ends.onMachine {T : Setting} {P : α → α → Prop} {ending ending' : Ending α}
    {change change' : Machine → Machine} (ends : S.Ends P ending ending')
    (moves : ∀ m m', S.Relates m m' → T.Relates (change m) (change' m')) :
    T.Ends P (ending.onMachine change) (ending'.onMachine change') := by
  cases ends with
  | ok related machines => exact .ok related (moves _ _ machines)
  | error same machines => exact .error same (moves _ _ machines)

/-! ## Rules -/

namespace Mirrors

variable {P : α → α → Prop} {Q : β → β → Prop} {action action' : Action α}

theorem pure {a b : α} (related : P a b) : S.Mirrors P (pure a) (pure b) :=
  fun _ _ machines => .ok related machines

theorem fail {cause cause' : Cause} (p : Position) (same : cause'.unnamed = cause.unnamed) :
    S.Mirrors P (Action.fail p cause) (Action.fail p cause') :=
  fun _ _ machines => .error (congrArg (fun c => Halt.fault (Fault.located p c)) same) machines

theorem exhausted : S.Mirrors P Action.exhausted Action.exhausted :=
  fun _ _ machines => .error rfl machines

theorem attempt {outcome outcome' : Except Cause α} (p : Position)
    (alike : OutcomesAlike P outcome outcome') :
    S.Mirrors P (Action.attempt p outcome) (Action.attempt p outcome') := by
  cases alike with
  | ok related => exact .pure related
  | error same => exact .fail p same

theorem bind {k k' : α → Action β} (first : S.Mirrors P action action')
    (further : ∀ a b, P a b → S.Mirrors Q (k a) (k' b)) :
    S.Mirrors Q (action >>= k) (action' >>= k') := by
  intro m m' machines
  rw [Action.bind_run, Action.bind_run]
  have ends := first m m' machines
  generalize action m = ending, action' m' = ending' at ends ⊢
  cases ends with
  | ok related later => exact further _ _ related _ _ later
  | error same later => exact .error same later

/-- What is read off the machines may be used if it is used alike. -/
theorem get {k k' : Machine → Action β}
    (further : ∀ m m', S.Relates m m' → S.Mirrors Q (k m) (k' m')) :
    S.Mirrors Q (MonadState.get >>= k) (MonadState.get >>= k') :=
  fun m m' machines => further m m' machines m m' machines

theorem modifies {g g' : Machine → Machine}
    (kept : ∀ m m', S.Relates m m' → S.Relates (g m) (g' m')) :
    S.Mirrors (fun _ _ => True) (modify g : Action Unit) (modify g') :=
  fun m m' machines => .ok trivial (kept m m' machines)

theorem inScope (body : S.Mirrors P action action') :
    S.Mirrors P (Action.inScope action) (Action.inScope action') := by
  have opened (m m' : Machine) (machines : S.Relates m m') : S.Relates m.pushScope m'.pushScope :=
    machines.withFrame Frame.pushScope Frame.pushScope (Frame.pushScope_rename _) fun _ => rfl
  have closed (m m' : Machine) (machines : S.Relates m m') : S.Relates m.popScope m'.popScope :=
    machines.withFrame Frame.popScope Frame.popScope (Frame.popScope_rename _) fun _ => rfl
  intro m m' machines
  rw [Action.inScope_run, Action.inScope_run]
  exact (body _ _ (opened m m' machines)).onMachine closed

/-- The frame of a call has a renaming of its own, and that of the caller comes back as it was. -/
theorem inFrame (frame : Frame) {r : Renaming}
    (bound : ∀ z ∈ r.bound, z ∈ frame.params.map (·.name))
    (body : ∀ callers callers', (Setting.mk r callers callers').Mirrors P action action') :
    S.Mirrors P (Action.inFrame frame action) (Action.inFrame (frame.rename r) action') := by
  intro m m' machines
  have entered : (Setting.mk r (m.frame :: m.callers) (m'.frame :: m'.callers)).Relates
      (m.pushFrame frame) (m'.pushFrame (frame.rename r)) :=
    ⟨machines.functions, machines.store, machines.sink, rfl, bound, rfl, rfl⟩
  have left (m₁ m₁' : Machine)
      (later : (Setting.mk r (m.frame :: m.callers) (m'.frame :: m'.callers)).Relates m₁ m₁') :
      S.Relates m₁.popFrame m₁'.popFrame := by
    refine ⟨later.functions, later.store, later.sink, ?_, ?_, ?_, ?_⟩
    all_goals simp only [Machine.popFrame, later.callers, later.callers', List.headD_cons,
      List.tail_cons]
    · exact machines.frame
    · exact machines.bound
    · exact machines.callers
    · exact machines.callers'
  rw [Action.inFrame_run, Action.inFrame_run]
  exact (body _ _ _ _ entered).onMachine left

end Mirrors

end Setting

namespace Action

open Setting

variable {S : Setting}

/-! ## Operations -/

theorem resolve?_mirrors {z : String} (admitted : S.names.Admits z) :
    S.Mirrors (fun w? w?' => w?' = w?.map (View.rename S.names) ∧
        (w? = none → S.names.apply z = z))
      (resolve? z) (resolve? (S.names.apply z)) :=
  .get fun _ _ machines => .pure (machines.resolve? admitted)

theorem resolve_mirrors {z : String} (admitted : S.names.Admits z) (p : Position) :
    S.Mirrors View.Alike (resolve z p) (resolve (S.names.apply z) p) := by
  refine (resolve?_mirrors admitted).bind fun w? w?' found => ?_
  obtain ⟨rfl, stays⟩ := found
  cases w? with
  | none =>
    rw [stays rfl]
    exact .fail p rfl
  | some w => exact .pure (w.alike_rename S.names)

theorem read_mirrors {w w' : View} (alike : w.Alike w') :
    S.Mirrors Value.Alike (read w) (read w') := by
  refine .get fun m m' machines => .pure ?_
  rw [alike.1]
  exact machines.store.value w.cell

/-- A new variable is seen under its name. -/
theorem create_mirrors (r : Renaming) (x : String) (t : Ty) {v v' : Value} (alike : v.Alike v') :
    S.Mirrors (fun w w' => w' = w.rename r ∧ w.name = x) (create ⟨x, t, v⟩)
      (create ⟨r.apply x, t, v'⟩) := by
  intro m m' machines
  rw [create_run, create_run, Store.directView_create, Store.directView_create]
  refine .ok ⟨?_, rfl⟩ (machines.withStore (machines.store.create rfl alike))
  rw [View.rename, machines.store.size]

theorem write_mirrors (cell : Nat) {v v' : Value} (alike : v.Alike v') :
    S.Mirrors (fun _ _ => True) (write cell v) (write cell v') :=
  .modifies fun _ _ machines => machines.withStore (machines.store.set alike cell)

theorem asCallable_mirrors {v v' : Value} (alike : v.Alike v') (p : Position) :
    S.Mirrors Callable.Alike (asCallable v p) (asCallable v' p) := by
  cases alike with
  | callable same => exact .pure same
  | constant constant =>
    cases v with
    | callable c => exact absurd rfl constant
    | none | string _ | int _ | flt _ | bool _ => exact .fail p rfl

theorem bindFront_mirrors {c d : Callable} (callee : c.Alike d) {args args' : List Arg}
    (given : List.Forall₂ Arg.Alike args args') :
    S.Mirrors Value.Alike (bindFront c args) (bindFront d args') := by
  intro m m' machines
  have stamped := machines.withStore machines.store.stamp
  refine .ok (.callable ?_) stamped
  rw [machines.store.made]
  exact .bound _ callee given

theorem name_mirrors {z : String} (admitted : S.names.Admits z) (p : Position) :
    S.Mirrors Value.Alike (name z p) (name (S.names.apply z) p) := by
  refine (resolve?_mirrors admitted).bind fun w? w?' found => ?_
  obtain ⟨rfl, stays⟩ := found
  cases w? with
  | some w => exact read_mirrors (w.alike_rename S.names)
  | none =>
    rw [stays rfl]
    refine .get fun m m' machines => ?_
    have found := machines.functions z
    generalize m.functions.find? z = c?, m'.functions.find? z = c?' at found ⊢
    cases found with
    | none => exact .fail p rfl
    | some same => exact .pure (.callable same)

theorem declare_mirrors (z : String) (t : Ty) {v v' : Value} (alike : v.Alike v') (p : Position) :
    S.Mirrors (fun _ _ => True) (declare z t v p) (declare (S.names.apply z) t v' p) := by
  unfold declare
  split
  · exact .fail p rfl
  have opens : ∀ m m', S.Relates m m' → S.Relates { m with frame := m.frame.withScope }
      { m' with frame := m'.frame.withScope } := fun m m' machines =>
    machines.withFrame Frame.withScope Frame.withScope (Frame.withScope_rename _)
      Frame.params_withScope
  refine (Mirrors.modifies opens).bind fun _ _ _ => .get fun m m' machines => ?_
  rw [machines.frame, Frame.declares_rename]
  split
  · exact .fail p rfl
  refine (Mirrors.attempt p (alike.cast t)).bind fun u u' same => ?_
  refine (create_mirrors S.names z t same).bind fun w w' created => ?_
  obtain ⟨rfl, -⟩ := created
  have declares : ∀ m m', S.Relates m m' → S.Relates { m with frame := m.frame.declare w }
      { m' with frame := m'.frame.declare (w.rename S.names) } := fun m m' machines =>
    machines.withFrame (·.declare w) (·.declare (w.rename S.names))
      (fun f => f.declare_rename S.names w) fun _ => rfl
  exact (Mirrors.modifies declares).bind fun _ _ _ => .pure trivial

theorem reassign_mirrors {z : String} (admitted : S.names.Admits z) {v v' : Value}
    (alike : v.Alike v') (p : Position) :
    S.Mirrors (fun _ _ => True) (reassign z v p) (reassign (S.names.apply z) v' p) := by
  refine (resolve?_mirrors admitted).bind fun w? w?' found => ?_
  obtain ⟨rfl, stays⟩ := found
  cases w? with
  | none =>
    rw [stays rfl]
    exact .fail p rfl
  | some w =>
    change S.Mirrors _ (if w.mutable then _ else _) (if w.mutable then _ else _)
    split
    · refine .get fun m m' machines => ?_
      change S.Mirrors _ _ (attempt p (v'.cast (m'.store.get w.cell).type) >>= write w.cell)
      rw [machines.store.type]
      exact (Mirrors.attempt p (alike.cast _)).bind fun u u' same => write_mirrors w.cell same
    · exact .fail p rfl

/-! ### Arguments -/

/-- A parameter is bound to a view under its name. -/
theorem bindParam_mirrors (r : Renaming) (x : Param) {a b : Arg} (alike : a.Alike b)
    (p : Position) :
    S.Mirrors (fun w w' => w' = w.rename r ∧ w.name = x.name) (bindParam x a p)
      (bindParam (x.rename r.apply) b p) := by
  refine .get fun m m' machines => ?_
  have type : (x.rename r.apply).type = x.type := rfl
  refine (Mirrors.attempt p (machines.store.bindArg type alike)).bind fun c c' bound => ?_
  cases bound with
  | value same => exact create_mirrors r x.name x.type same
  | view cell mutable => exact .pure ⟨rfl, rfl⟩

theorem bindParams_mirrors (r : Renaming) (p : Position) {params : List Param}
    {args args' : List Arg} (given : List.Forall₂ Arg.Alike args args')
    (arity : params.length = args.length) :
    S.Mirrors (fun ws ws' => ws' = ws.map (View.rename r) ∧ ws.map (·.name) = params.map (·.name))
      (bindParams p params args) (bindParams p (params.map (Param.rename r.apply)) args') := by
  induction params generalizing args args' with
  | nil => exact .pure ⟨rfl, rfl⟩
  | cons x xs inductionHypothesis =>
    cases given with
    | nil => cases arity
    | cons head tail =>
      refine (bindParam_mirrors r x head p).bind fun w w' first => ?_
      obtain ⟨renamed, name⟩ := first
      refine (inductionHypothesis tail (Nat.succ.inj arity)).bind fun ws ws' others => ?_
      obtain ⟨rest, names⟩ := others
      exact .pure ⟨by rw [renamed, rest, List.map_cons], by
        rw [List.map_cons, List.map_cons, name, names]⟩

/-! ### Native functions -/

theorem writeValue_mirrors {v v' : Value} (alike : v.Alike v') (p : Position) :
    S.Mirrors (fun _ _ => True) (writeValue v p) (writeValue v' p) := by
  refine .get fun m m' machines => ?_
  simp only [alike.pieces, machines.sink]
  refine (Mirrors.modifies fun _ _ later => later.withSink _).bind fun _ _ _ => ?_
  split
  · exact .pure trivial
  · exact .fail p rfl

theorem incrementArg_mirrors {a b : Arg} (alike : a.Alike b) (p : Position) :
    S.Mirrors (fun _ _ => True) (incrementArg a p) (incrementArg b p) := by
  cases alike with
  | value _ => exact .pure trivial
  | @view w w' same =>
    refine (read_mirrors same).bind fun v v' held => ?_
    cases held with
    | callable _ => exact .pure trivial
    | constant constant =>
      cases v with
      | int n =>
        have integer := Value.alike_of_givesConstant (checked_givesConstant (n.toInt + 1))
        rw [same.1]
        exact (Mirrors.attempt p integer).bind fun u u' next => write_mirrors w.cell next
      | none | string _ | flt _ | bool _ | callable _ => exact .pure trivial

theorem native_mirrors [Memory] (action : Native) {args args' : List Arg}
    (given : List.Forall₂ Arg.Alike args args') (p : Position) :
    S.Mirrors Value.Alike (native action args p) (native action args' p) := by
  have nothing (_ _ : Unit) (_ : True) : S.Mirrors Value.Alike (pure .none) (pure .none) :=
    .pure (.refl .none)
  cases action with
  | foreign code => exact nothing () () trivial
  | increment =>
    cases given with
    | nil => exact .fail p rfl
    | cons head tail => exact (incrementArg_mirrors head p).bind nothing
  | write =>
    cases given with
    | nil => exact .fail p rfl
    | cons head tail =>
      exact .get fun _ _ machines =>
        (writeValue_mirrors (machines.store.argValue head) p).bind nothing

theorem callBuiltin_mirrors [Memory] (b : Builtin) {args args' : List Arg}
    (given : List.Forall₂ Arg.Alike args args') (p : Position) :
    S.Mirrors Value.Alike (callBuiltin b args p) (callBuiltin b args' p) := by
  unfold callBuiltin
  rw [given.length_eq]
  refine (Mirrors.attempt p (checkArity_alike b.name _ _)).bind fun _ _ _ => ?_
  refine .get fun m m' machines => ?_
  have alike := machines.store.bindArgs b.params given
  exact (Mirrors.attempt p alike).bind fun bound bound' taken => native_mirrors b.native taken p

/-! ## The induction over the evaluator -/

/-- Evaluations under a bound do in other names what they did. -/
structure KeepsStep [Memory] (n : Nat) : Prop where
  eval : ∀ {S : Setting} {e : Expr}, S.names.AdmitsAll e.names →
    S.Mirrors Value.Alike (eval n e) (eval n (e.rename S.names.apply))
  evalCallable : ∀ {S : Setting} {e : Expr}, S.names.AdmitsAll e.names →
    S.Mirrors Callable.Alike (evalCallable n e) (evalCallable n (e.rename S.names.apply))
  evalArgs : ∀ {S : Setting} {es : List Expr}, S.names.AdmitsAll (Expr.namesAll es) →
    S.Mirrors (List.Forall₂ Arg.Alike) (evalArgs n es)
      (evalArgs n (Expr.renameAll S.names.apply es))
  evalArg : ∀ {S : Setting} {e : Expr}, S.names.AdmitsAll e.names →
    S.Mirrors Arg.Alike (evalArg n e) (evalArg n (e.rename S.names.apply))
  test : ∀ {S : Setting} {e : Expr}, S.names.AdmitsAll e.names →
    S.Mirrors Eq (test n e) (test n (e.rename S.names.apply))
  call : ∀ {S : Setting} {c d : Callable}, c.Alike d → ∀ {args args' : List Arg},
    List.Forall₂ Arg.Alike args args' → ∀ p,
      S.Mirrors Value.Alike (call n c args p) (call n d args' p)
  execBlock : ∀ {S : Setting} {body : Block}, S.names.AdmitsAll (Stmt.namesAll body) →
    S.Mirrors Flow.Alike (execBlock n body) (execBlock n (Stmt.renameAll S.names.apply body))
  execAll : ∀ {S : Setting} {body : Block}, S.names.AdmitsAll (Stmt.namesAll body) →
    S.Mirrors Flow.Alike (execAll n body) (execAll n (Stmt.renameAll S.names.apply body))
  exec : ∀ {S : Setting} {s : Stmt}, S.names.AdmitsAll s.names →
    S.Mirrors Flow.Alike (exec n s) (exec n (s.rename S.names.apply))
  execOtherwise : ∀ {S : Setting} {o : Otherwise}, S.names.AdmitsAll o.names →
    S.Mirrors Flow.Alike (execOtherwise n o) (execOtherwise n (o.rename S.names.apply))
  assign : ∀ {S : Setting} {a : Assignment}, S.names.AdmitsAll a.names →
    S.Mirrors (fun _ _ => True) (assign n a) (assign n (a.rename S.names.apply))
  execWhile : ∀ {S : Setting} {condition : Expr} {body : Block},
    S.names.AdmitsAll condition.names → S.names.AdmitsAll (Stmt.namesAll body) →
      S.Mirrors Flow.Alike (execWhile n condition body)
        (execWhile n (condition.rename S.names.apply) (Stmt.renameAll S.names.apply body))
  loopView : ∀ {S : Setting} {i : Iterator}, S.names.AdmitsAll i.names →
    S.Mirrors View.Alike (loopView n i) (loopView n (i.rename S.names.apply))
  execFor : ∀ {S : Setting} {i : Iterator} {condition : Expr} {body : Block} {onIter : Expr},
    S.names.AdmitsAll i.names → S.names.AdmitsAll condition.names →
    S.names.AdmitsAll (Stmt.namesAll body) → S.names.AdmitsAll onIter.names → ∀ p,
      S.Mirrors Flow.Alike (execFor n i condition body onIter p)
        (execFor n (i.rename S.names.apply) (condition.rename S.names.apply)
          (Stmt.renameAll S.names.apply body) (onIter.rename S.names.apply) p)
  iterate : ∀ {S : Setting} {condition : Expr} {body : Block} {c d : Callable} {w w' : View},
    S.names.AdmitsAll condition.names → S.names.AdmitsAll (Stmt.namesAll body) →
    c.Alike d → w.Alike w' → ∀ p,
      S.Mirrors Flow.Alike (iterate n condition body c w p)
        (iterate n (condition.rename S.names.apply) (Stmt.renameAll S.names.apply body) d w' p)

namespace KeepsStep

variable {n : Nat}

theorem eval_succ [Memory] (before : KeepsStep n) {e : Expr} (admitted : S.names.AdmitsAll e.names) :
    S.Mirrors Value.Alike (Action.eval (n + 1) e)
      (Action.eval (n + 1) (e.rename S.names.apply)) := by
  cases e with
  | literal value p => exact .pure (.refl _)
  | name x p => exact name_mirrors admitted.cons.1 p
  | unary op operand p =>
    have onOperand : S.names.AdmitsAll operand.names := admitted
    exact (before.eval onOperand).bind fun v v' held => .attempt p (op.apply_alike held)
  | binary op left right p =>
    obtain ⟨onLeft, onRight⟩ := admitted.append
    have operands : ∀ op : BinaryOp, S.Mirrors Value.Alike
        (do let v ← Action.eval n left; let w ← Action.eval n right
            Action.attempt p (op.apply v w))
        (do let v ← Action.eval n (left.rename S.names.apply)
            let w ← Action.eval n (right.rename S.names.apply)
            Action.attempt p (op.apply v w)) := fun op =>
      (before.eval onLeft).bind fun v v' first => (before.eval onRight).bind fun w w' second =>
        .attempt p (op.apply_alike first second)
    cases op with
    | decorate =>
      refine (before.evalCallable onLeft).bind fun c c' decorator => ?_
      refine (before.evalCallable onRight).bind fun d d' target => ?_
      exact bindFront_mirrors target (.cons (.value (.callable decorator)) .nil)
    | _ => exact operands _
  | call callee args p =>
    obtain ⟨onArgs, onCallee⟩ := admitted.append
    refine (before.evalArgs onArgs).bind fun as as' given => ?_
    exact (before.evalCallable onCallee).bind fun c c' same => before.call same given p
  | bind callee args p =>
    obtain ⟨onArgs, onCallee⟩ := admitted.append
    refine (before.evalArgs onArgs).bind fun as as' given => ?_
    exact (before.evalCallable onCallee).bind fun c c' same => bindFront_mirrors same given

theorem evalCallable_succ [Memory] (before : KeepsStep n) {e : Expr}
    (admitted : S.names.AdmitsAll e.names) :
    S.Mirrors Callable.Alike (Action.evalCallable (n + 1) e)
      (Action.evalCallable (n + 1) (e.rename S.names.apply)) := by
  refine (before.eval admitted).bind fun v v' held => ?_
  rw [Expr.position_rename]
  exact asCallable_mirrors held e.position

theorem evalArgs_succ [Memory] (before : KeepsStep n) {es : List Expr}
    (admitted : S.names.AdmitsAll (Expr.namesAll es)) :
    S.Mirrors (List.Forall₂ Arg.Alike) (Action.evalArgs (n + 1) es)
      (Action.evalArgs (n + 1) (Expr.renameAll S.names.apply es)) := by
  cases es with
  | nil => exact .pure .nil
  | cons e es =>
    obtain ⟨onHead, onTail⟩ := admitted.append
    exact (before.evalArg onHead).bind fun a a' head =>
      (before.evalArgs onTail).bind fun as as' tail => .pure (.cons head tail)

theorem evalArg_succ [Memory] (before : KeepsStep n) {e : Expr}
    (admitted : S.names.AdmitsAll e.names) :
    S.Mirrors Arg.Alike (Action.evalArg (n + 1) e)
      (Action.evalArg (n + 1) (e.rename S.names.apply)) := by
  have byValue : S.Mirrors Arg.Alike (do return .value (← Action.eval n e))
      (do return .value (← Action.eval n (e.rename S.names.apply))) :=
    (before.eval admitted).bind fun v v' held => .pure (.value held)
  cases e with
  | name x p =>
    have known := admitted.cons.1
    refine (resolve?_mirrors known).bind fun w? w?' found => ?_
    obtain ⟨rfl, -⟩ := found
    cases w? with
    | none => exact byValue
    | some w => exact .pure (.view (w.alike_rename S.names))
  | literal _ _ | unary _ _ _ | binary _ _ _ _ | call _ _ _ | bind _ _ _ => exact byValue

theorem test_succ [Memory] (before : KeepsStep n) {e : Expr} (admitted : S.names.AdmitsAll e.names) :
    S.Mirrors Eq (Action.test (n + 1) e) (Action.test (n + 1) (e.rename S.names.apply)) := by
  refine (before.eval admitted).bind fun v v' held => ?_
  rw [Expr.position_rename, held.truth]
  refine .attempt e.position ?_
  cases v.truth with
  | ok b => exact .ok rfl
  | error cause => exact .error rfl

theorem call_succ [Memory] (before : KeepsStep n) {c d : Callable} (alike : c.Alike d)
    {args args' : List Arg} (given : List.Forall₂ Arg.Alike args args') (p : Position) :
    S.Mirrors Value.Alike (Action.call (n + 1) c args p) (Action.call (n + 1) d args' p) := by
  cases alike with
  | builtin b stamp => exact callBuiltin_mirrors b given p
  | bound stamp callee bound => exact before.call callee (List.rel_append bound given) p
  | @function f g same =>
    obtain ⟨r, suits, rfl⟩ := same
    obtain ⟨-, onBody⟩ := suits.admits.append
    simp only [Action.call, Function.rename, List.length_map, ← given.length_eq]
    refine (Mirrors.attempt p (checkArity_alike f.name _ _)).bind fun _ _ arity => ?_
    refine (bindParams_mirrors r p given arity).bind fun ws ws' taken => ?_
    obtain ⟨rfl, names⟩ := taken
    have bound : ∀ z ∈ r.bound, z ∈ ws.map (·.name) := fun z member => names ▸ suits.bound z member
    -- The body is run under the renaming of the function, whatever that of the caller is.
    refine (Mirrors.inFrame ⟨ws, []⟩ bound fun _ _ => before.execBlock onBody).bind ?_
    exact fun flow flow' ends => .attempt p (ends.result f.ret)

theorem execAll_succ [Memory] (before : KeepsStep n) {body : Block}
    (admitted : S.names.AdmitsAll (Stmt.namesAll body)) :
    S.Mirrors Flow.Alike (Action.execAll (n + 1) body)
      (Action.execAll (n + 1) (Stmt.renameAll S.names.apply body)) := by
  cases body with
  | nil => exact .pure .normal
  | cons s rest =>
    obtain ⟨onHead, onTail⟩ := admitted.append
    refine (before.exec onHead).bind fun flow flow' ends => ?_
    cases ends with
    | normal => exact before.execAll onTail
    | returned held => exact .pure (.returned held)

/-- A branch or a round of a loop: a condition, and then one of two actions. -/
theorem branch [Memory] (before : KeepsStep n) {condition : Expr}
    (admitted : S.names.AdmitsAll condition.names)
    {holds holds' fails fails' : Action Flow} (whenHolds : S.Mirrors Flow.Alike holds holds')
    (whenFails : S.Mirrors Flow.Alike fails fails') :
    S.Mirrors Flow.Alike (do if ← Action.test n condition then holds else fails)
      (do if ← Action.test n (condition.rename S.names.apply) then holds' else fails') := by
  refine (before.test admitted).bind fun b b' same => ?_
  subst same
  cases b with
  | true => exact whenHolds
  | false => exact whenFails

theorem exec_succ [Memory] (before : KeepsStep n) {s : Stmt} (admitted : S.names.AdmitsAll s.names) :
    S.Mirrors Flow.Alike (Action.exec (n + 1) s)
      (Action.exec (n + 1) (s.rename S.names.apply)) := by
  cases s with
  | assign a => exact (before.assign admitted).bind fun _ _ _ => .pure .normal
  | run e p => exact (before.eval admitted).bind fun _ _ _ => .pure .normal
  | giveBack e p => exact (before.eval admitted).bind fun v v' held => .pure (.returned held)
  | branch condition body others p =>
    obtain ⟨onCondition, admitted⟩ := admitted.append
    obtain ⟨onBody, onOthers⟩ := admitted.append
    exact before.branch onCondition (before.execBlock onBody) (before.execOtherwise onOthers)
  | whileLoop condition body p =>
    obtain ⟨onCondition, onBody⟩ := admitted.append
    exact before.execWhile onCondition onBody
  | forLoop i condition body onIter p =>
    obtain ⟨onIterator, admitted⟩ := admitted.append
    obtain ⟨onCondition, admitted⟩ := admitted.append
    obtain ⟨onBody, onCall⟩ := admitted.append
    exact .inScope (before.execFor onIterator onCondition onBody onCall p)

theorem execOtherwise_succ [Memory] (before : KeepsStep n) {o : Otherwise}
    (admitted : S.names.AdmitsAll o.names) :
    S.Mirrors Flow.Alike (Action.execOtherwise (n + 1) o)
      (Action.execOtherwise (n + 1) (o.rename S.names.apply)) := by
  cases o with
  | nothing => exact .pure .normal
  | elif condition body others p =>
    obtain ⟨onCondition, admitted⟩ := admitted.append
    obtain ⟨onBody, onOthers⟩ := admitted.append
    exact before.branch onCondition (before.execBlock onBody) (before.execOtherwise onOthers)
  | block body p => exact before.execBlock admitted

theorem assign_succ [Memory] (before : KeepsStep n) {a : Assignment}
    (admitted : S.names.AdmitsAll a.names) :
    S.Mirrors (fun _ _ => True) (Action.assign (n + 1) a)
      (Action.assign (n + 1) (a.rename S.names.apply)) := by
  obtain ⟨value, declared?, x, p⟩ := a
  obtain ⟨onName, onValue⟩ := admitted.cons
  refine (before.eval onValue).bind fun v v' held => ?_
  cases declared? with
  | some t => exact (declare_mirrors x t held p).bind fun _ _ _ => .pure trivial
  | none => exact reassign_mirrors onName held p

theorem execWhile_succ [Memory] (before : KeepsStep n) {condition : Expr} {body : Block}
    (onCondition : S.names.AdmitsAll condition.names)
    (onBody : S.names.AdmitsAll (Stmt.namesAll body)) :
    S.Mirrors Flow.Alike (Action.execWhile (n + 1) condition body)
      (Action.execWhile (n + 1) (condition.rename S.names.apply)
        (Stmt.renameAll S.names.apply body)) := by
  refine before.branch onCondition ?_ (.pure .normal)
  refine (before.execBlock onBody).bind fun flow flow' ends => ?_
  cases ends with
  | normal => exact before.execWhile onCondition onBody
  | returned held => exact .pure (.returned held)

theorem loopView_succ [Memory] (before : KeepsStep n) {i : Iterator}
    (admitted : S.names.AdmitsAll i.names) :
    S.Mirrors View.Alike (Action.loopView (n + 1) i)
      (Action.loopView (n + 1) (i.rename S.names.apply)) := by
  cases i with
  | assign a =>
    have onName : S.names.Admits a.name := admitted.cons.1
    exact (before.assign admitted).bind fun _ _ _ => resolve_mirrors onName a.position
  | existing x p => exact resolve_mirrors admitted.cons.1 p

theorem execFor_succ [Memory] (before : KeepsStep n) {i : Iterator} {condition : Expr} {body : Block}
    {onIter : Expr} (onIterator : S.names.AdmitsAll i.names)
    (onCondition : S.names.AdmitsAll condition.names)
    (onBody : S.names.AdmitsAll (Stmt.namesAll body))
    (onCall : S.names.AdmitsAll onIter.names) (p : Position) :
    S.Mirrors Flow.Alike (Action.execFor (n + 1) i condition body onIter p)
      (Action.execFor (n + 1) (i.rename S.names.apply) (condition.rename S.names.apply)
        (Stmt.renameAll S.names.apply body) (onIter.rename S.names.apply) p) :=
  (before.loopView onIterator).bind fun _ _ found => (before.evalCallable onCall).bind
    fun _ _ same => before.iterate onCondition onBody same found p

theorem iterate_succ [Memory] (before : KeepsStep n) {condition : Expr} {body : Block}
    {c d : Callable} {w w' : View} (onCondition : S.names.AdmitsAll condition.names)
    (onBody : S.names.AdmitsAll (Stmt.namesAll body)) (same : c.Alike d) (found : w.Alike w')
    (p : Position) :
    S.Mirrors Flow.Alike (Action.iterate (n + 1) condition body c w p)
      (Action.iterate (n + 1) (condition.rename S.names.apply)
        (Stmt.renameAll S.names.apply body) d w' p) := by
  refine before.branch onCondition ?_ (.pure .normal)
  refine (before.execBlock onBody).bind fun flow flow' ends => ?_
  cases ends with
  | normal =>
    exact (before.call same (.cons (.view found) .nil) p).bind fun _ _ _ =>
      before.iterate onCondition onBody same found p
  | returned held => exact .pure (.returned held)

end KeepsStep

/-- Every evaluation does in other names what it did. -/
theorem evaluation_mirrors [Memory] (n : Nat) : KeepsStep n := by
  -- The evaluators call each other, and the bound falls with every call.
  induction n with
  | zero => constructor <;> intros <;> exact .exhausted
  | succ n inductionHypothesis =>
    exact {
      eval := inductionHypothesis.eval_succ
      evalCallable := inductionHypothesis.evalCallable_succ
      evalArgs := inductionHypothesis.evalArgs_succ
      evalArg := inductionHypothesis.evalArg_succ
      test := inductionHypothesis.test_succ
      call := inductionHypothesis.call_succ
      execBlock := fun admitted => .inScope (inductionHypothesis.execAll admitted)
      execAll := inductionHypothesis.execAll_succ
      exec := inductionHypothesis.exec_succ
      execOtherwise := inductionHypothesis.execOtherwise_succ
      assign := inductionHypothesis.assign_succ
      execWhile := inductionHypothesis.execWhile_succ
      loopView := inductionHypothesis.loopView_succ
      execFor := inductionHypothesis.execFor_succ
      iterate := inductionHypothesis.iterate_succ }

/-! ## Programs -/

theorem define_mirrors {f g : Function} (alike : f.Alike g) :
    S.Mirrors (fun _ _ => True) (define f) (define g) := by
  refine .get fun m m' machines => ?_
  rw [alike.name, alike.position]
  have found := machines.functions f.name
  generalize m.functions.find? f.name = c?, m'.functions.find? f.name = c?' at found ⊢
  cases found with
  | none =>
    refine .modifies fun m m' machines => ?_
    exact { machines with functions := machines.functions.insert f.name (.function alike) }
  | some same => cases same <;> exact .fail f.position rfl

theorem load_mirrors {program program' : Program}
    (alike : List.Forall₂ Function.Alike program program') :
    S.Mirrors (fun _ _ => True) (load program) (load program') := by
  induction alike with
  | nil => exact .pure trivial
  | cons head _ inductionHypothesis =>
    exact (define_mirrors head).bind fun _ _ _ => inductionHypothesis

theorem mainFunction_mirrors : S.Mirrors Function.Alike mainFunction mainFunction := by
  refine .get fun m m' machines => ?_
  have missing : S.Mirrors Function.Alike (throw (.fault .missingMain))
      (throw (.fault .missingMain)) := fun _ _ machines => .error rfl machines
  have found := machines.functions "main"
  generalize m.functions.find? "main" = c?, m'.functions.find? "main" = c?' at found ⊢
  cases found with
  | none => exact missing
  | some same =>
    cases same with
    | function alike => exact .pure alike
    | builtin b stamp => exact missing
    | bound stamp callee args => exact missing

theorem flush_mirrors (p : Position) : S.Mirrors (fun _ _ => True) (flush p) (flush p) := by
  refine .get fun m m' machines => ?_
  rw [machines.sink]
  split
  · exact .fail p rfl
  · exact .pure trivial

theorem asCode_mirrors {v v' : Value} (alike : v.Alike v') (p : Position) :
    S.Mirrors Eq (asCode v p) (asCode v' p) := by
  cases alike with
  | callable _ => exact .fail p rfl
  | constant _ =>
    cases v with
    | int k => exact .pure rfl
    | none | string _ | flt _ | bool _ | callable _ => exact .fail p rfl

/-- Programs of alike functions do the same. -/
theorem run_mirrors [Memory] (n : Nat) {program program' : Program}
    (alike : List.Forall₂ Function.Alike program program') :
    S.Mirrors Eq (run n program) (run n program') := by
  refine (load_mirrors alike).bind fun _ _ _ => ?_
  refine mainFunction_mirrors.bind fun f g same => ?_
  rw [same.position]
  refine ((evaluation_mirrors n).call (.function same) .nil f.position).bind fun v v' held => ?_
  exact (flush_mirrors f.position).bind fun _ _ _ => asCode_mirrors held f.position

end Action

/-- Under another name for a parameter, which does not stand in its function yet, every program has
the same exit code or the same fault at the same position, up to the name of a variable that the
fault tells, and writes the same.  The parameter may be bound by value or by reference, and its name
may be that of other variables in the function and elsewhere. -/
theorem parameters_are_bound_hygienically [Memory] (n : Nat) (before after : Program) (f : Function)
    (x y : String) (m : Machine) (parameter : x ∈ f.params.map (·.name)) (fresh : y ∉ f.names) :
    (Ending.result (Action.run n (before ++ f.rename (replacing x y) :: after) m)).mapError
        (Halt.map Fault.unnamed) =
      (Ending.result (Action.run n (before ++ f :: after) m)).mapError (Halt.map Fault.unnamed) ∧
    (Ending.machine (Action.run n (before ++ f.rename (replacing x y) :: after) m)).sink =
      (Ending.machine (Action.run n (before ++ f :: after) m)).sink := by
  have others : ∀ program : Program, List.Forall₂ Function.Alike program program :=
    fun _ => List.forall₂_same.2 fun g _ => .refl g
  have alike : List.Forall₂ Function.Alike (before ++ f :: after)
      (before ++ f.rename (replacing x y) :: after) :=
    List.rel_append (others before)
      (.cons (Function.alike_rename_replacing parameter fresh) (others after))
  have ends := Action.run_mirrors n alike m m (Setting.relates_self m)
  generalize Action.run n (before ++ f :: after) m = ending,
    Action.run n (before ++ f.rename (replacing x y) :: after) m = ending' at ends ⊢
  cases ends with
  | ok same machines => exact ⟨congrArg Except.ok same.symm, machines.sink⟩
  | error same machines => exact ⟨congrArg Except.error same, machines.sink⟩

/-- A function that counts a variable down to zero.  While it is not zero, the function takes one
from it, binds itself to it, hides the parameter behind another variable of its name, and calls what
it has bound. -/
def countDown : Function :=
  ⟨"countDown", .base .int false, [⟨"x", .base .int true⟩],
    [.branch (.name "x" .start)
        [.assign ⟨.binary .sub (.name "x" .start) (.literal (.int 1) .start) .start, none, "x",
            .start⟩,
          .assign ⟨.bind (.name "countDown" .start) [.name "x" .start] .start,
            some (.func (.base .int false) []), "again", .start⟩,
          .assign ⟨.literal (.int 7) .start, some (.base .int false), "x", .start⟩,
          .run (.call (.name "again" .start) [] .start) .start]
        .nothing .start,
      .giveBack (.name "x" .start) .start], .start⟩

/-- A main function that counts a variable `k` down and returns it. -/
def countingMain : Function :=
  ⟨"main", .base .int false, [],
    [.assign ⟨.literal (.int 1) .start, some (.base .int true), "k", .start⟩,
      .run (.call (.name "countDown" .start) [.name "k" .start] .start) .start,
      .giveBack (.name "k" .start) .start], .start⟩

/-- The parameter may have the name of the variable that is passed. -/
theorem countDown_under_the_name_of_its_argument :
    "x" ∈ countDown.params.map (·.name) ∧ "k" ∉ countDown.names ∧
    Ending.result (Action.run 30 [countDown, countingMain] .standard) = .ok 0 ∧
    (Ending.result (Action.run 30 [countDown.rename (replacing "x" "k"), countingMain]
      .standard)).mapError (Halt.map Fault.unnamed) = .ok 0 := by
  have parameter : "x" ∈ countDown.params.map (·.name) := .head _
  have fresh : "k" ∉ countDown.names := by decide
  have counted : Ending.result (Action.run 30 [countDown, countingMain] .standard) = .ok 0 := by rfl
  have renamed := parameters_are_bound_hygienically 30 [] [countingMain] countDown "x" "k" .standard
    parameter fresh
  exact ⟨parameter, fresh, counted, renamed.1.trans (congrArg _ counted)⟩

end Rightflow
