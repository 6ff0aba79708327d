import Rightflow.Proofs.Reached
import Rightflow.Proofs.Relocation

/-!
# Evaluations hand positions on

Nothing that a program does depends on the positions in it: a position is only handed on to the
fault that is raised there.  So a program in which positions have been changed, on a machine in
which they have been changed, does what it did before, and its values and its fault are changed
alike: `evaluation_relocates` states it of all that is evaluated, and `run_follows` of a whole
program.

On the way the faults themselves are looked at.  That the result of a program is no exit code is
found out when the evaluation is over, and no evaluation says so.
-/

namespace Rightflow

variable {f : Position → Position} {α β : Type}

/-! ## Causes -/

/-- An outcome that is no complaint about the result of a program. -/
def Ordinary (outcome : Except Cause α) : Prop := ∀ k, outcome ≠ .error (.mainResult k)

theorem Ordinary.map {outcome : Except Cause α} (ordinary : Ordinary outcome) (g : α → β) :
    Ordinary (outcome.map g) := by
  cases outcome with
  | ok a => rintro _ ⟨⟩
  | error cause =>
    rintro k ⟨⟩
    exact ordinary k rfl

theorem checkArity_ordinary (x : String) (expected found : Nat) :
    Ordinary (checkArity x expected found) := by
  unfold checkArity
  split <;> rintro _ ⟨⟩

theorem checked_ordinary (n : Int) : Ordinary (checked n) := by
  unfold checked
  split <;> rintro _ ⟨⟩

theorem UnaryOp.apply_ordinary (op : UnaryOp) (v : Value) : Ordinary (op.apply v) := by
  unfold UnaryOp.apply
  split
  · exact checked_ordinary _
  all_goals rintro _ ⟨⟩

theorem Text.concatenate_ordinary (left right : Value) :
    Ordinary (Text.concatenate left right) := by
  unfold Text.concatenate
  split <;> rintro _ ⟨⟩

theorem Text.repetition_ordinary [Memory] (s : String) (count : Int64) :
    Ordinary (Text.repetition s count) := by
  unfold Text.repetition
  by_cases negative : count.toInt < 0
  · simp [repeatCount, negative, Ordinary, bind, Except.bind]
  · simp only [repeatCount, negative, if_false, bind, Except.bind]
    split
    · rintro _ ⟨⟩
    · split <;> rintro _ ⟨⟩

namespace BinaryOp

theorem onNumbers_ordinary (op : BinaryOp) (left right : Value) :
    Ordinary (op.onNumbers left right) := by
  unfold onNumbers
  split
  · cases op <;> simp only [onIntegers]
    case add | sub | mul => exact checked_ordinary _
    case div =>
      split
      · rintro _ ⟨⟩
      · exact checked_ordinary _
    all_goals rintro _ ⟨⟩
  all_goals rintro _ ⟨⟩

theorem arithmetic_ordinary [Memory] (op : BinaryOp) (left right : Value) :
    Ordinary (op.arithmetic left right) := by
  unfold arithmetic
  split
  · exact Text.concatenate_ordinary _ _
  · exact Text.concatenate_ordinary _ _
  · exact Text.repetition_ordinary _ _
  · exact Text.repetition_ordinary _ _
  · exact onNumbers_ordinary _ _ _

theorem apply_ordinary [Memory] (op : BinaryOp) (left right : Value) :
    Ordinary (op.apply left right) := by
  cases op <;> simp only [apply]
  case add | sub | mul | div => exact arithmetic_ordinary _ left right
  case less | greater | atMost | atLeast | equal | unequal =>
    unfold comparison
    split <;> rintro _ ⟨⟩
  case and | or =>
    unfold logic
    split <;> rintro _ ⟨⟩
  case decorate => rintro _ ⟨⟩

end BinaryOp

namespace Value

theorem cast_ordinary (v : Value) (t : Ty) : Ordinary (v.cast t) := by
  cases t with
  | func ret params =>
    simp only [cast, castFunc]
    split
    · split <;> rintro _ ⟨⟩
    · rintro _ ⟨⟩
  | base b mutable =>
    cases b with
    | int =>
      simp only [cast, castInt]
      split
      · rintro _ ⟨⟩
      · split <;> rintro _ ⟨⟩
      all_goals rintro _ ⟨⟩
    | flt => simp only [cast, castFlt]; split <;> rintro _ ⟨⟩
    | string => simp only [cast, castString]; split <;> rintro _ ⟨⟩
    | bool => simp only [cast, castBool]; split <;> rintro _ ⟨⟩
    | void => rintro _ ⟨⟩

theorem default_ordinary (t : Ty) : Ordinary (Value.default t) := by
  unfold Value.default
  split <;> rintro _ ⟨⟩

theorem truth_ordinary (v : Value) : Ordinary v.truth := by
  unfold truth
  split <;> rintro _ ⟨⟩

end Value

namespace Store

theorem bindArg_ordinary (s : Store) (x : Param) (a : Arg) : Ordinary (s.bindArg x a) := by
  cases a with
  | value v => exact (v.cast_ordinary x.type).map _
  | view w =>
    simp only [bindArg]
    split
    · rintro _ ⟨⟩
    · split <;> rintro _ ⟨⟩

theorem bindArgs_ordinary (s : Store) (params : List Param) (args : List Arg) :
    Ordinary (s.bindArgs params args) := by
  induction params generalizing args with
  | nil => rintro _ ⟨⟩
  | cons x xs inductionHypothesis =>
    cases args with
    | nil => rintro _ ⟨⟩
    | cons a as =>
      have head := s.bindArg_ordinary x a
      have tail := inductionHypothesis as
      simp only [bindArgs]
      cases taken : s.bindArg x a with
      | error cause => rw [taken] at head; rintro k ⟨⟩; exact head k rfl
      | ok b =>
        cases rest : s.bindArgs xs as with
        | error cause => rw [rest] at tail; rintro k ⟨⟩; exact tail k rfl
        | ok bs => rintro _ ⟨⟩

end Store

/-! ## Flows and endings -/

def Flow.relocate (f : Position → Position) : Flow → Flow
  | .normal => .normal
  | .returned v => .returned (v.relocate f)

theorem Flow.result_relocate (flow : Flow) (ret : Ty) :
    (flow.relocate f).result ret = (flow.result ret).map (Value.relocate f) := by
  unfold Flow.result
  split
  · rfl
  · cases flow with
    | normal => exact (Value.default_relocate f ret).symm
    | returned v => exact Value.cast_relocate f v ret

theorem Flow.result_ordinary (flow : Flow) (ret : Ty) : Ordinary (flow.result ret) := by
  unfold Flow.result
  split
  · rintro _ ⟨⟩
  · cases flow with
    | normal => exact Value.default_ordinary ret
    | returned v => exact v.cast_ordinary ret

def Ending.relocate (f : Position → Position) (move : α → α) : Ending α → Ending α
  | .ok a m => .ok (move a) (m.relocate f)
  | .error e m => .error (e.map (Fault.relocate f)) (m.relocate f)

namespace Action

/-- On a machine in which positions are changed, one action does what the other one does on the
machine as it was, with the positions changed. -/
def Follows (f : Position → Position) (move : α → α) (moved plain : Action α) : Prop :=
  ∀ m : Machine, moved (m.relocate f) = Ending.relocate f move (plain m)

theorem Follows.bind {move : α → α} {move' : β → β} {moved plain : Action α} {k' k : α → Action β}
    (first : Follows f move moved plain) (further : ∀ a, Follows f move' (k' (move a)) (k a)) :
    Follows f move' (moved >>= k') (plain >>= k) := by
  intro m
  rw [bind_run, bind_run, first m]
  cases plain m with
  | ok a m' => exact further a m'
  | error e m' => rfl

/-- An action that follows another one, which is no complaint about the result of a program. -/
structure Relocates (f : Position → Position) (move : α → α) (moved plain : Action α) : Prop where
  follows : Follows f move moved plain
  ordinary : ∀ m p k m', plain m ≠ .error (.fault (.located p (.mainResult k))) m'

namespace Relocates

variable {move : α → α} {move' : β → β} {moved plain : Action α}

/-! ## Rules -/

/-- An action that never fails, with what it gives and the machine that it leaves. -/
theorem of_ok {value : Machine → α} {after : Machine → Machine}
    (run : ∀ m, plain m = .ok (value m) (after m))
    (runMoved : ∀ m : Machine, moved (m.relocate f) = .ok (move (value m)) ((after m).relocate f)) :
    Relocates f move moved plain where
  follows m := by
    rw [run, runMoved]
    rfl
  ordinary m p k m' raised := by
    rw [run] at raised
    cases raised

theorem pure {a a' : α} (same : a' = move a) : Relocates f move (pure a') (pure a) := by
  subst same
  exact .of_ok (fun _ => rfl) fun _ => rfl

theorem exhausted : Relocates f move Action.exhausted Action.exhausted where
  follows _ := rfl
  ordinary := by rintro _ _ _ _ ⟨⟩

theorem attempt {outcome outcome' : Except Cause α} (p : Position)
    (same : outcome' = outcome.map move) (ordinary : Ordinary outcome) :
    Relocates f move (Action.attempt (f p) outcome') (Action.attempt p outcome) := by
  subst same
  cases outcome with
  | ok a => exact .pure rfl
  | error cause =>
    refine ⟨fun _ => rfl, fun m q k m' raised => ?_⟩
    cases raised
    exact ordinary k rfl

theorem fail {cause : Cause} (p : Position) (ordinary : ∀ k, cause ≠ .mainResult k) :
    Relocates f move (Action.fail (f p) cause) (Action.fail p cause) :=
  have ordinary' : Ordinary (.error cause : Except Cause α) := fun k same =>
    ordinary k (Except.error.inj same)
  attempt p rfl ordinary'

theorem bind {k' k : α → Action β} (first : Relocates f move moved plain)
    (further : ∀ a, Relocates f move' (k' (move a)) (k a)) :
    Relocates f move' (moved >>= k') (plain >>= k) where
  follows := first.follows.bind fun a => (further a).follows
  ordinary := by
    intro m p c m' raised
    rw [bind_run] at raised
    cases ending : plain m with
    | ok a m₁ =>
      rw [ending] at raised
      exact (further a).ordinary m₁ p c m' raised
    | error e m₁ =>
      rw [ending] at raised
      cases raised
      exact first.ordinary m p c _ ending

/-- What is read off the machine may be used if it is used alike. -/
theorem get {k' k : Machine → Action β}
    (further : ∀ m : Machine, Relocates f move' (k' (m.relocate f)) (k m)) :
    Relocates f move' (MonadState.get >>= k') (MonadState.get >>= k) :=
  ⟨fun m => (further m).follows m, fun m => (further m).ordinary m⟩

theorem modifies {g' g : Machine → Machine}
    (same : ∀ m : Machine, g' (m.relocate f) = (g m).relocate f) :
    Relocates f id (modify g' : Action Unit) (modify g) :=
  .of_ok (fun _ => rfl) fun m => congrArg (EStateM.Result.ok PUnit.unit) (same m)

/-- An action between an entry and an exit, neither of which looks at positions. -/
theorem enclosed {enclose : Action α → Action α} {enter leave : Machine → Machine}
    (run : ∀ action m, enclose action m = Ending.onMachine (action (enter m)) leave)
    (enters : ∀ m : Machine, enter (m.relocate f) = (enter m).relocate f)
    (leaves : ∀ m : Machine, leave (m.relocate f) = (leave m).relocate f)
    (body : Relocates f move moved plain) : Relocates f move (enclose moved) (enclose plain) where
  follows m := by
    rw [run, run, enters, body.follows]
    cases plain (enter m) with
    | ok a m' => exact congrArg (EStateM.Result.ok (move a)) (leaves m')
    | error e m' => exact congrArg (EStateM.Result.error (e.map (Fault.relocate f))) (leaves m')
  ordinary m p k m' raised := by
    rw [run] at raised
    cases ending : plain (enter m) with
    | ok a m₁ => rw [ending] at raised; cases raised
    | error e m₁ =>
      rw [ending] at raised
      cases raised
      exact body.ordinary _ _ _ _ ending

theorem inScope (body : Relocates f move moved plain) :
    Relocates f move (Action.inScope moved) (Action.inScope plain) :=
  body.enclosed (fun action _ => inScope_run action) (fun _ => rfl) fun _ => rfl

theorem inFrame (frame : Frame) (body : Relocates f move moved plain) :
    Relocates f move (Action.inFrame frame moved) (Action.inFrame frame plain) :=
  body.enclosed (fun action _ => inFrame_run frame action) (fun _ => rfl) fun _ => rfl

end Relocates

/-! ## Operations -/

theorem resolve?_relocates (x : String) : Relocates f id (resolve? x) (resolve? x) :=
  .of_ok (fun _ => rfl) fun _ => rfl

theorem resolve_relocates (x : String) (p : Position) :
    Relocates f id (resolve x (f p)) (resolve x p) := by
  refine (resolve?_relocates x).bind fun w? => ?_
  cases w? with
  | none => exact .fail p nofun
  | some w => exact .pure rfl

theorem read_relocates (w : View) : Relocates f (Value.relocate f) (read w) (read w) :=
  .get fun m => .pure (congrArg Variable.value (Store.get_relocate f m.store w.cell))

theorem create_relocates (x : Variable) :
    Relocates f id (create (x.relocate f)) (create x) := by
  refine .of_ok (fun _ => create_run x) fun m => ?_
  rw [create_run, Machine.store_relocate, Store.create_relocate, Store.directView_relocate,
    Store.size_relocate]
  rfl

theorem write_relocates (cell : Nat) (v : Value) :
    Relocates f id (write cell (v.relocate f)) (write cell v) :=
  .modifies fun m => congrArg (fun s => { m.relocate f with store := s })
    (Store.set_relocate f m.store cell v)

theorem stamp_relocates : Relocates f id stamp stamp :=
  .get fun _ => .bind (.modifies fun _ => rfl) fun _ => .pure rfl

theorem asCallable_relocates (v : Value) (p : Position) :
    Relocates f (Callable.relocate f) (asCallable (v.relocate f) (f p)) (asCallable v p) := by
  cases v with
  | callable c => exact .pure rfl
  | none | string _ | int _ | flt _ | bool _ => exact .fail p nofun

theorem bindFront_relocates (c : Callable) (args : List Arg) :
    Relocates f (Value.relocate f) (bindFront (c.relocate f) (args.map (Arg.relocate f)))
      (bindFront c args) :=
  stamp_relocates.bind fun n => .pure (by simp [Value.relocate])

theorem name_relocates (x : String) (p : Position) :
    Relocates f (Value.relocate f) (name x (f p)) (name x p) := by
  refine (resolve?_relocates x).bind fun w? => ?_
  cases w? with
  | some w => exact read_relocates w
  | none =>
    refine .get fun m => ?_
    simp only [Machine.functions_relocate, FunctionTable.find?_relocate]
    cases m.functions.find? x with
    | none => exact .fail p nofun
    | some c => exact .pure (by simp [Value.relocate])

theorem declare_relocates (x : String) (t : Ty) (v : Value) (p : Position) :
    Relocates f id (declare x t (v.relocate f) (f p)) (declare x t v p) := by
  unfold declare
  split
  · exact .fail p nofun
  refine .bind (.modifies fun _ => rfl) fun _ => .get fun m => ?_
  rw [Machine.frame_relocate]
  split
  · exact .fail p nofun
  refine .bind (.attempt p (Value.cast_relocate f v t) (v.cast_ordinary t)) fun u => ?_
  refine (create_relocates ⟨x, t, u⟩).bind fun w => ?_
  exact .bind (.modifies fun _ => rfl) fun _ => .pure rfl

theorem reassign_relocates (x : String) (v : Value) (p : Position) :
    Relocates f id (reassign x (v.relocate f) (f p)) (reassign x v p) := by
  refine (resolve?_relocates x).bind fun w? => ?_
  cases w? with
  | none => exact .fail p nofun
  | some w =>
    simp only [id_eq]
    split
    · refine .get fun m => ?_
      rw [Machine.store_relocate, Store.get_relocate, Variable.type_relocate]
      refine .bind (.attempt p (Value.cast_relocate f v _) (v.cast_ordinary _)) fun u => ?_
      exact write_relocates w.cell u
    · exact .fail p nofun

theorem bindParam_relocates (x : Param) (a : Arg) (p : Position) :
    Relocates f id (bindParam x (a.relocate f) (f p)) (bindParam x a p) := by
  refine .get fun m => ?_
  refine .bind (.attempt p (Store.bindArg_relocate f m.store x a) (m.store.bindArg_ordinary x a)) ?_
  intro b
  cases b with
  | view w => exact .pure rfl
  | value v => exact create_relocates ⟨x.name, x.type, v⟩

theorem bindParams_relocates (p : Position) (params : List Param) (args : List Arg) :
    Relocates f id (bindParams (f p) params (args.map (Arg.relocate f)))
      (bindParams p params args) := by
  induction params generalizing args with
  | nil => exact .pure rfl
  | cons x xs inductionHypothesis =>
    cases args with
    | nil => exact .pure rfl
    | cons a as =>
      exact (bindParam_relocates x a p).bind fun w =>
        (inductionHypothesis as).bind fun ws => .pure rfl

/-! ### Native functions -/

theorem writeValue_relocates (v : Value) (p : Position) :
    Relocates f id (writeValue (v.relocate f) (f p)) (writeValue v p) := by
  refine .get fun m => ?_
  have written : (m.relocate f).sink.writeAll (v.relocate f).pieces = m.sink.writeAll v.pieces := by
    rw [Value.pieces_relocate, Machine.sink_relocate]
  simp only [written]
  refine .bind (.modifies fun _ => rfl) fun _ => ?_
  split
  · exact .pure rfl
  · exact .fail p nofun

theorem incrementArg_relocates (a : Arg) (p : Position) :
    Relocates f id (incrementArg (a.relocate f) (f p)) (incrementArg a p) := by
  cases a with
  | value v => exact .pure rfl
  | view w =>
    refine (read_relocates w).bind fun v => ?_
    cases v with
    | int n =>
      have integer : GivesConstant (checked (n.toInt + 1)) := checked_givesConstant _
      refine .bind (.attempt p (Value.map_relocate f integer).symm (checked_ordinary _)) fun u => ?_
      exact write_relocates w.cell u
    | none | string _ | flt _ | bool _ | callable _ => exact .pure rfl

theorem native_relocates [Memory] (action : Native) (args : List Arg) (p : Position) :
    Relocates f (Value.relocate f) (native action (args.map (Arg.relocate f)) (f p))
      (native action args p) := by
  cases action with
  | foreign code =>
    rw [native_foreign, native_foreign]
    exact .pure rfl
  | increment =>
    cases args with
    | nil => exact .fail p nofun
    | cons a rest => exact (incrementArg_relocates a p).bind fun _ => .pure rfl
  | write =>
    cases args with
    | nil => exact .fail p nofun
    | cons a rest =>
      refine .get fun m => ?_
      rw [Machine.store_relocate, Store.argValue_relocate]
      exact (writeValue_relocates _ p).bind fun _ => .pure rfl

theorem callBuiltin_relocates [Memory] (b : Builtin) (args : List Arg) (p : Position) :
    Relocates f (Value.relocate f) (callBuiltin b (args.map (Arg.relocate f)) (f p))
      (callBuiltin b args p) := by
  unfold callBuiltin
  rw [List.length_map]
  have arity := checkArity_ordinary b.name b.signature.params.length args.length
  refine .bind (.attempt p (congrFun Except.map_id _).symm arity) fun _ => .get fun m => ?_
  have taken := Store.bindArgs_ordinary m.store b.params args
  refine .bind (.attempt p (Store.bindArgs_relocate f m.store _ _) taken) fun bound => ?_
  exact native_relocates b.native bound p

/-! ## The induction over the evaluator -/

/-- Evaluations under a bound hand positions on. -/
structure HandsOn [Memory] (f : Position → Position) (n : Nat) : Prop where
  eval : ∀ e, Relocates f (Value.relocate f) (eval n (e.relocate f)) (eval n e)
  evalCallable : ∀ e,
    Relocates f (Callable.relocate f) (evalCallable n (e.relocate f)) (evalCallable n e)
  evalArgs : ∀ es, Relocates f (List.map (Arg.relocate f)) (evalArgs n (es.map (Expr.relocate f)))
    (evalArgs n es)
  evalArg : ∀ e, Relocates f (Arg.relocate f) (evalArg n (e.relocate f)) (evalArg n e)
  test : ∀ e, Relocates f id (test n (e.relocate f)) (test n e)
  call : ∀ c args p, Relocates f (Value.relocate f)
    (call n (c.relocate f) (args.map (Arg.relocate f)) (f p)) (call n c args p)
  execBlock : ∀ body, Relocates f (Flow.relocate f) (execBlock n (body.map (Stmt.relocate f)))
    (execBlock n body)
  execAll : ∀ body, Relocates f (Flow.relocate f) (execAll n (body.map (Stmt.relocate f)))
    (execAll n body)
  exec : ∀ s, Relocates f (Flow.relocate f) (exec n (s.relocate f)) (exec n s)
  execOtherwise : ∀ o, Relocates f (Flow.relocate f) (execOtherwise n (o.relocate f))
    (execOtherwise n o)
  assign : ∀ a, Relocates f id (assign n (a.relocate f)) (assign n a)
  execWhile : ∀ condition body, Relocates f (Flow.relocate f)
    (execWhile n (condition.relocate f) (body.map (Stmt.relocate f))) (execWhile n condition body)
  loopView : ∀ i, Relocates f id (loopView n (i.relocate f)) (loopView n i)
  execFor : ∀ i condition body onIter p, Relocates f (Flow.relocate f)
    (execFor n (i.relocate f) (condition.relocate f) (body.map (Stmt.relocate f))
      (onIter.relocate f) (f p)) (execFor n i condition body onIter p)
  iterate : ∀ condition body c w p, Relocates f (Flow.relocate f)
    (iterate n (condition.relocate f) (body.map (Stmt.relocate f)) (c.relocate f) w (f p))
    (iterate n condition body c w p)

namespace HandsOn

variable {n : Nat}

theorem eval_succ [Memory] (before : HandsOn f n) (e : Expr) :
    Relocates f (Value.relocate f) (Action.eval (n + 1) (e.relocate f))
      (Action.eval (n + 1) e) := by
  cases e with
  | literal value p =>
    exact .pure (Value.isConstant_ofLiteral value).relocate.symm
  | name x p => exact name_relocates x p
  | unary op operand p =>
    refine (before.eval operand).bind fun v => .attempt p ?_ (op.apply_ordinary v)
    rw [UnaryOp.apply_relocate, Value.map_relocate f (op.apply_givesConstant v)]
  | binary op left right p =>
    have operands : ∀ op : BinaryOp, Relocates f (Value.relocate f)
        (do let v ← Action.eval n (left.relocate f); let w ← Action.eval n (right.relocate f)
            Action.attempt (f p) (op.apply v w))
        (do let v ← Action.eval n left; let w ← Action.eval n right
            Action.attempt p (op.apply v w)) := by
      intro op
      refine (before.eval left).bind fun v => (before.eval right).bind fun w => ?_
      refine .attempt p ?_ (op.apply_ordinary v w)
      rw [BinaryOp.apply_relocate, Value.map_relocate f (op.apply_givesConstant v w)]
    cases op with
    | decorate =>
      refine (before.evalCallable left).bind fun c => (before.evalCallable right).bind fun d => ?_
      exact bindFront_relocates d [.value (.callable c)]
    | _ => exact operands _
  | call callee args p =>
    simp only [Expr.relocate, Expr.relocateAll_eq_map]
    refine (before.evalArgs args).bind fun as => (before.evalCallable callee).bind fun c => ?_
    exact before.call c as p
  | bind callee args p =>
    simp only [Expr.relocate, Expr.relocateAll_eq_map]
    refine (before.evalArgs args).bind fun as => (before.evalCallable callee).bind fun c => ?_
    exact bindFront_relocates c as

theorem evalCallable_succ [Memory] (before : HandsOn f n) (e : Expr) :
    Relocates f (Callable.relocate f) (Action.evalCallable (n + 1) (e.relocate f))
      (Action.evalCallable (n + 1) e) := by
  refine (before.eval e).bind fun v => ?_
  rw [Expr.position_relocate]
  exact asCallable_relocates v e.position

theorem evalArgs_succ [Memory] (before : HandsOn f n) (es : List Expr) :
    Relocates f (List.map (Arg.relocate f)) (Action.evalArgs (n + 1) (es.map (Expr.relocate f)))
      (Action.evalArgs (n + 1) es) := by
  cases es with
  | nil => exact .pure rfl
  | cons e es =>
    exact (before.evalArg e).bind fun a => (before.evalArgs es).bind fun as => .pure rfl

theorem evalArg_succ [Memory] (before : HandsOn f n) (e : Expr) :
    Relocates f (Arg.relocate f) (Action.evalArg (n + 1) (e.relocate f))
      (Action.evalArg (n + 1) e) := by
  have byValue : Relocates f (Arg.relocate f)
      (do return .value (← Action.eval n (e.relocate f))) (do return .value (← Action.eval n e)) :=
    (before.eval e).bind fun v => .pure rfl
  cases e with
  | name x p =>
    refine (resolve?_relocates x).bind fun w? => ?_
    cases w? with
    | none => exact byValue
    | some w => exact .pure rfl
  | literal _ _ | unary _ _ _ | binary _ _ _ _ | call _ _ _ | bind _ _ _ => exact byValue

theorem test_succ [Memory] (before : HandsOn f n) (e : Expr) :
    Relocates f id (Action.test (n + 1) (e.relocate f)) (Action.test (n + 1) e) := by
  refine (before.eval e).bind fun v => ?_
  rw [Expr.position_relocate, Value.truth_relocate]
  exact .attempt e.position (congrFun Except.map_id _).symm v.truth_ordinary

theorem call_succ [Memory] (before : HandsOn f n) (c : Callable) (args : List Arg) (p : Position) :
    Relocates f (Value.relocate f)
      (Action.call (n + 1) (c.relocate f) (args.map (Arg.relocate f)) (f p))
      (Action.call (n + 1) c args p) := by
  cases c with
  | builtin b stamp => exact callBuiltin_relocates b args p
  | bound callee bound stamp =>
    rw [Callable.relocate_bound]
    simp only [Action.call, ← List.map_append]
    exact before.call callee (bound ++ args) p
  | function g =>
    simp only [Callable.relocate, Function.relocate, Stmt.relocateAll_eq_map, Action.call,
      List.length_map]
    have arity := checkArity_ordinary g.name g.params.length args.length
    refine .bind (.attempt p (congrFun Except.map_id _).symm arity) fun _ => ?_
    refine (bindParams_relocates p g.params args).bind fun views => ?_
    refine (Relocates.inFrame _ (before.execBlock g.body)).bind fun flow => ?_
    exact .attempt p (flow.result_relocate g.ret) (flow.result_ordinary g.ret)

theorem execAll_succ [Memory] (before : HandsOn f n) (body : List Stmt) :
    Relocates f (Flow.relocate f) (Action.execAll (n + 1) (body.map (Stmt.relocate f)))
      (Action.execAll (n + 1) body) := by
  cases body with
  | nil => exact .pure rfl
  | cons s rest =>
    refine (before.exec s).bind fun flow => ?_
    cases flow with
    | normal => exact before.execAll rest
    | returned v => exact .pure rfl

/-- A branch or a round of a loop: a condition, and then one of two actions. -/
theorem branch [Memory] (before : HandsOn f n) (condition : Expr)
    {holds holds' fails fails' : Action Flow}
    (whenHolds : Relocates f (Flow.relocate f) holds' holds)
    (whenFails : Relocates f (Flow.relocate f) fails' fails) :
    Relocates f (Flow.relocate f)
      (do if ← Action.test n (condition.relocate f) then holds' else fails')
      (do if ← Action.test n condition then holds else fails) := by
  refine (before.test condition).bind fun b => ?_
  cases b with
  | true => exact whenHolds
  | false => exact whenFails

theorem exec_succ [Memory] (before : HandsOn f n) (s : Stmt) :
    Relocates f (Flow.relocate f) (Action.exec (n + 1) (s.relocate f)) (Action.exec (n + 1) s) := by
  cases s with
  | assign a => exact (before.assign a).bind fun _ => .pure rfl
  | run e p => exact (before.eval e).bind fun _ => .pure rfl
  | giveBack e p => exact (before.eval e).bind fun v => .pure rfl
  | branch condition body others p =>
    simp only [Stmt.relocate, Stmt.relocateAll_eq_map]
    exact before.branch condition (before.execBlock body) (before.execOtherwise others)
  | whileLoop condition body p =>
    simp only [Stmt.relocate, Stmt.relocateAll_eq_map]
    exact before.execWhile condition body
  | forLoop i condition body onIter p =>
    simp only [Stmt.relocate, Stmt.relocateAll_eq_map]
    exact .inScope (before.execFor i condition body onIter p)

theorem execOtherwise_succ [Memory] (before : HandsOn f n) (o : Otherwise) :
    Relocates f (Flow.relocate f) (Action.execOtherwise (n + 1) (o.relocate f))
      (Action.execOtherwise (n + 1) o) := by
  cases o with
  | nothing => exact .pure rfl
  | elif condition body others p =>
    simp only [Otherwise.relocate, Stmt.relocateAll_eq_map]
    exact before.branch condition (before.execBlock body) (before.execOtherwise others)
  | block body p =>
    simp only [Otherwise.relocate, Stmt.relocateAll_eq_map]
    exact before.execBlock body

theorem assign_succ [Memory] (before : HandsOn f n) (a : Assignment) :
    Relocates f id (Action.assign (n + 1) (a.relocate f)) (Action.assign (n + 1) a) := by
  obtain ⟨value, declared?, x, p⟩ := a
  refine (before.eval value).bind fun v => ?_
  cases declared? with
  | some t => exact (declare_relocates x t v p).bind fun _ => .pure rfl
  | none => exact reassign_relocates x v p

theorem execWhile_succ [Memory] (before : HandsOn f n) (condition : Expr) (body : Block) :
    Relocates f (Flow.relocate f)
      (Action.execWhile (n + 1) (condition.relocate f) (body.map (Stmt.relocate f)))
      (Action.execWhile (n + 1) condition body) := by
  refine before.branch condition ?_ (.pure rfl)
  refine (before.execBlock body).bind fun flow => ?_
  cases flow with
  | normal => exact before.execWhile condition body
  | returned v => exact .pure rfl

theorem loopView_succ [Memory] (before : HandsOn f n) (i : Iterator) :
    Relocates f id (Action.loopView (n + 1) (i.relocate f)) (Action.loopView (n + 1) i) := by
  cases i with
  | assign a => exact (before.assign a).bind fun _ => resolve_relocates a.name a.position
  | existing x p => exact resolve_relocates x p

theorem execFor_succ [Memory] (before : HandsOn f n) (i : Iterator) (condition : Expr) (body : Block)
    (onIter : Expr) (p : Position) :
    Relocates f (Flow.relocate f)
      (Action.execFor (n + 1) (i.relocate f) (condition.relocate f) (body.map (Stmt.relocate f))
        (onIter.relocate f) (f p))
      (Action.execFor (n + 1) i condition body onIter p) :=
  (before.loopView i).bind fun w => (before.evalCallable onIter).bind fun c =>
    before.iterate condition body c w p

theorem iterate_succ [Memory] (before : HandsOn f n) (condition : Expr) (body : Block) (c : Callable)
    (w : View) (p : Position) :
    Relocates f (Flow.relocate f)
      (Action.iterate (n + 1) (condition.relocate f) (body.map (Stmt.relocate f)) (c.relocate f) w
        (f p))
      (Action.iterate (n + 1) condition body c w p) := by
  refine before.branch condition ?_ (.pure rfl)
  refine (before.execBlock body).bind fun flow => ?_
  cases flow with
  | normal =>
    exact (before.call c [.view w] p).bind fun _ => before.iterate condition body c w p
  | returned v => exact .pure rfl

end HandsOn

/-- Every evaluation hands positions on, and raises no complaint about the result of a program. -/
theorem evaluation_relocates [Memory] (n : Nat) : HandsOn f n := by
  -- The evaluators call each other, and the bound falls with every call.
  induction n with
  | zero => constructor <;> intros <;> exact .exhausted
  | succ n inductionHypothesis =>
    exact {
      eval := inductionHypothesis.eval_succ
      evalCallable := inductionHypothesis.evalCallable_succ
      evalArgs := inductionHypothesis.evalArgs_succ
      evalArg := inductionHypothesis.evalArg_succ
      test := inductionHypothesis.test_succ
      call := inductionHypothesis.call_succ
      execBlock := fun body => .inScope (inductionHypothesis.execAll body)
      execAll := inductionHypothesis.execAll_succ
      exec := inductionHypothesis.exec_succ
      execOtherwise := inductionHypothesis.execOtherwise_succ
      assign := inductionHypothesis.assign_succ
      execWhile := inductionHypothesis.execWhile_succ
      loopView := inductionHypothesis.loopView_succ
      execFor := inductionHypothesis.execFor_succ
      iterate := inductionHypothesis.iterate_succ }

/-! ## Programs -/

theorem define_relocates (g : Function) :
    Relocates f id (define (g.relocate f)) (define g) := by
  refine .get fun m => ?_
  have name : (g.relocate f).name = g.name := rfl
  simp only [name, Machine.functions_relocate, FunctionTable.find?_relocate]
  cases m.functions.find? g.name with
  | some c => cases c <;> exact .fail g.position nofun
  | none =>
    refine .modifies fun m => ?_
    have inserted := FunctionTable.insert_relocate f m.functions g.name (.function g)
    rw [Callable.relocate] at inserted
    exact congrArg (fun t => { m.relocate f with functions := t }) inserted

theorem load_relocates (program : Program) :
    Relocates f id (load (program.relocate f)) (load program) := by
  induction program with
  | nil => exact .pure rfl
  | cons g rest inductionHypothesis =>
    exact (define_relocates g).bind fun _ => inductionHypothesis

theorem mainFunction_relocates : Relocates f (Function.relocate f) mainFunction mainFunction := by
  refine .get fun m => ?_
  simp only [Machine.functions_relocate, FunctionTable.find?_relocate]
  have missing : Relocates f (Function.relocate f) (throw (.fault .missingMain))
      (throw (.fault .missingMain)) := ⟨fun _ => rfl, by rintro _ _ _ _ ⟨⟩⟩
  cases m.functions.find? "main" with
  | none => exact missing
  | some c =>
    cases c with
    | function g => exact .pure rfl
    | builtin b stamp => exact missing
    | bound callee args stamp =>
      simp only [Option.map_some, Callable.relocate_bound]
      exact missing

theorem flush_relocates (p : Position) : Relocates f id (flush (f p)) (flush p) := by
  refine .get fun m => ?_
  rw [Machine.sink_relocate]
  split
  · exact .fail p nofun
  · exact .pure rfl

/-- A program in which positions are changed runs as before, and with it its fault is changed. -/
theorem run_follows [Memory] (n : Nat) (program : Program) :
    Follows f id (run n (program.relocate f)) (run n program) := by
  -- The last step may complain about the result, so that no more than following is left.
  refine (load_relocates program).follows.bind fun _ => ?_
  refine mainFunction_relocates.follows.bind fun g => ?_
  refine ((evaluation_relocates n).call (.function g) [] g.position).follows.bind fun v => ?_
  refine (flush_relocates g.position).follows.bind fun _ => ?_
  cases v with
  | int k => exact fun _ => rfl
  | none | string _ | flt _ | bool _ | callable _ => exact fun _ => rfl

end Action

end Rightflow
