import Rightflow.Evaluation
import Rightflow.Proofs.Values

/-!
# Disciplines of evaluation

Many properties of programs are kept by whatever an evaluation does, because they are kept by the
few operations that touch the machine: looking a name up, declaring and assigning, binding
arguments, opening scopes and frames, calling a native function.  A `Discipline` is such a property
together with the proofs that these operations keep it.  `Discipline.lawful` is the induction over
the evaluator, made once for all of them: every expression, call, block, statement and loop keeps
every discipline, whatever bound it runs under and however it ends.

A discipline is one on some host, and may rely on what that host is known to do.  It may speak about
one run or about several; `Sat` says what it asks of an action that is begun in a machine.  What an
evaluation has in hand while it goes on is followed by `Held`, which no change of the store that the
discipline allows takes away.
-/

namespace Rightflow

/-! ## Declaring statements -/

/-- Whether an action may leave a variable behind in the scope in which it was begun. -/
inductive Mode where
  | closed
  | declaring
deriving DecidableEq, Repr

/-- An assignment that gives a type declares. -/
def Assignment.mode (a : Assignment) : Mode :=
  if a.declared?.isSome then .declaring else .closed

/-- Of all statements only an assignment may declare in the scope in which it stands. -/
def Stmt.mode : Stmt → Mode
  | .assign a => a.mode
  | _ => .closed

/-! ## Disciplines -/

/-- What an evaluation relies on while it goes on. -/
structure Reliance where
  /-- What holds of a machine between two operations. -/
  Inv : Machine → Prop
  /-- How the store may change. -/
  Le : Store → Store → Prop
  /-- What holds of an argument that an evaluation has in hand. -/
  Held : Store → Arg → Prop
  held_mono : ∀ {s s' : Store} {a : Arg}, Le s s' → Held s a → Held s' a
  held_constant : ∀ {s : Store} {v : Value}, v.IsConstant → Held s (.value v)
  held_bound : ∀ {s : Store} {callee : Callable} {args : List Arg} {stamp : Nat},
    Held s (.value (.callable (.bound callee args stamp))) →
      Held s (.value (.callable callee)) ∧ ∀ a ∈ args, Held s a
  held_cast : ∀ {s : Store} {v w : Value} {t : Ty},
    Held s (.value v) → v.cast t = .ok w → Held s (.value w)

/-- Nothing is relied on. -/
def Reliance.none : Reliance where
  Inv _ := True
  Le _ _ := True
  Held _ _ := True
  held_mono _ _ := trivial
  held_constant _ := trivial
  held_bound _ := ⟨trivial, fun _ _ => trivial⟩
  held_cast _ _ := trivial

structure Discipline [Host] extends Reliance where
  /-- What is asked of an action begun in a machine, with a property of its result. -/
  Sat : Mode → {α : Type} → Action α → Machine → (α → Store → Prop) → Prop
  result : ∀ {mode : Mode} {α : Type} {m : Machine} {Q : α → Store → Prop} {x : α},
    Inv m → Q x m.store → Sat mode (pure x) m Q
  halt : ∀ {mode : Mode} {α : Type} {m : Machine} {Q : α → Store → Prop} (h : Halt Fault),
    Inv m → Sat mode (throw h : Action α) m Q
  sequence : ∀ {mode : Mode} {α β : Type} {m : Machine} {action : Action α} {next : α → Action β}
      {P : α → Store → Prop} {Q : β → Store → Prop},
    Sat mode action m P →
      (∀ x m', Inv m' → Le m.store m'.store → P x m'.store → Sat mode (next x) m' Q) →
        Sat mode (action >>= next) m Q
  close : ∀ {mode : Mode} {α : Type} {m : Machine} {action : Action α} {Q : α → Store → Prop},
    Sat .closed action m Q → Sat mode action m Q
  name : ∀ {m : Machine} (x : String) (p : Position),
    Inv m → Sat .closed (Action.name x p) m fun v s => Held s (.value v)
  resolve? : ∀ {m : Machine} (x : String),
    Inv m → Sat .closed (Action.resolve? x) m fun w? s => ∀ w, w? = some w → Held s (.view w)
  bindFront : ∀ {m : Machine} {callee : Callable} {args : List Arg},
    Inv m → Held m.store (.value (.callable callee)) → (∀ a ∈ args, Held m.store a) →
      Sat .closed (Action.bindFront callee args) m fun v s => Held s (.value v)
  callBuiltin : ∀ {m : Machine} {b : Builtin} {stamp : Nat} {args : List Arg} (p : Position),
    Inv m → Held m.store (.value (.callable (.builtin b stamp))) → (∀ a ∈ args, Held m.store a) →
      Sat .closed (Action.callBuiltin b args p) m fun v s => Held s (.value v)
  declare : ∀ {m : Machine} {v : Value} (x : String) (t : Ty) (p : Position),
    Inv m → Held m.store (.value v) →
      Sat .declaring (Action.declare x t v p) m fun w s => Held s (.view w)
  reassign : ∀ {m : Machine} {v : Value} (x : String) (p : Position),
    Inv m → Held m.store (.value v) → Sat .closed (Action.reassign x v p) m fun _ _ => True
  inScope : ∀ {m : Machine} {α : Type} {action : Action α} {Q : α → Store → Prop},
    Inv m → (Inv m.pushScope → Sat .declaring action m.pushScope Q) →
      Sat .closed (Action.inScope action) m Q
  enter : ∀ {m : Machine} {α : Type} {body : Action α} {Q : α → Store → Prop}
      {params : List Param} {args : List Arg} (p : Position),
    Inv m → (∀ a ∈ args, Held m.store a) → (∀ m', Inv m' → Sat .closed body m' Q) →
      Sat .closed
        (do let views ← Action.bindParams p params args; Action.inFrame { params := views } body)
        m Q

namespace Discipline

variable [Host] {D : Discipline} {mode : Mode} {α β : Type} {m : Machine} {n : Nat}

/-! ## What an evaluation has in hand -/

def HeldValue (D : Discipline) (v : Value) (s : Store) : Prop := D.Held s (.value v)

def HeldCallable (D : Discipline) (c : Callable) (s : Store) : Prop :=
  D.Held s (.value (.callable c))

def HeldArgs (D : Discipline) (args : List Arg) (s : Store) : Prop := ∀ a ∈ args, D.Held s a

def HeldView (D : Discipline) (w : View) (s : Store) : Prop := D.Held s (.view w)

def HeldFlow (D : Discipline) (flow : Flow) (s : Store) : Prop :=
  ∀ v, flow = .returned v → D.Held s (.value v)

theorem HeldArgs.mono {s s' : Store} {args : List Arg} (changed : D.Le s s')
    (held : D.HeldArgs args s) : D.HeldArgs args s' :=
  fun a member => D.held_mono changed (held a member)

theorem heldFlow_normal {s : Store} : D.HeldFlow .normal s := nofun

theorem heldFlow_returned {v : Value} {s : Store} (held : D.HeldValue v s) :
    D.HeldFlow (.returned v) s := by
  rintro _ ⟨⟩
  exact held

/-! ## Derived rules -/

theorem fail (p : Position) (cause : Cause) {Q : α → Store → Prop} (good : D.Inv m) :
    D.Sat mode (Action.fail p cause) m Q :=
  D.halt _ good

theorem attempt (p : Position) {outcome : Except Cause α} {Q : α → Store → Prop} (good : D.Inv m)
    (known : ∀ x, outcome = .ok x → Q x m.store) :
    D.Sat mode (Action.attempt p outcome) m Q := by
  cases outcome with
  | ok x => exact D.result good (known x rfl)
  | error cause => exact fail p cause good

theorem asCallable {v : Value} (p : Position) (good : D.Inv m) (held : D.HeldValue v m.store) :
    D.Sat mode (Action.asCallable v p) m D.HeldCallable := by
  cases v with
  | callable c => exact D.result good held
  | none | string _ | int _ | flt _ | bool _ => exact fail p _ good

theorem resolve (x : String) (p : Position) (good : D.Inv m) :
    D.Sat .closed (Action.resolve x p) m D.HeldView := by
  refine D.sequence (D.resolve? x good) fun w? m' good' _ held => ?_
  cases w? with
  | none => exact fail p _ good'
  | some w => exact D.result good' (held w rfl)

/-- What a call gives, from how its body ended. -/
theorem flowResult {flow : Flow} {ret : Ty} (p : Position) (good : D.Inv m)
    (held : D.HeldFlow flow m.store) :
    D.Sat mode (Action.attempt p (flow.result ret)) m D.HeldValue := by
  refine attempt p good fun v given => ?_
  unfold Flow.result at given
  split at given
  · cases given
    exact D.held_constant nofun
  · cases flow with
    | normal => exact D.held_constant (Value.isConstant_of_default given)
    | returned w => exact D.held_cast (held w rfl) given

/-! ## The induction over the evaluator -/

/-- Every evaluation under a bound keeps the discipline. -/
structure Lawful (D : Discipline) (n : Nat) : Prop where
  eval : ∀ e m, D.Inv m → D.Sat .closed (Action.eval n e) m D.HeldValue
  evalCallable : ∀ e m, D.Inv m → D.Sat .closed (Action.evalCallable n e) m D.HeldCallable
  evalArgs : ∀ es m, D.Inv m → D.Sat .closed (Action.evalArgs n es) m D.HeldArgs
  evalArg : ∀ e m, D.Inv m → D.Sat .closed (Action.evalArg n e) m fun a s => D.Held s a
  test : ∀ e m, D.Inv m → D.Sat .closed (Action.test n e) m fun _ _ => True
  call : ∀ c args p m, D.Inv m → D.HeldCallable c m.store → D.HeldArgs args m.store →
    D.Sat .closed (Action.call n c args p) m D.HeldValue
  execBlock : ∀ body m, D.Inv m → D.Sat .closed (Action.execBlock n body) m D.HeldFlow
  execAll : ∀ body m, D.Inv m → D.Sat .declaring (Action.execAll n body) m D.HeldFlow
  exec : ∀ s m, D.Inv m → D.Sat s.mode (Action.exec n s) m D.HeldFlow
  execOtherwise : ∀ o m, D.Inv m → D.Sat .closed (Action.execOtherwise n o) m D.HeldFlow
  assign : ∀ a m, D.Inv m → D.Sat a.mode (Action.assign n a) m fun _ _ => True
  execWhile : ∀ condition body m, D.Inv m →
    D.Sat .closed (Action.execWhile n condition body) m D.HeldFlow
  loopView : ∀ i m, D.Inv m → D.Sat .declaring (Action.loopView n i) m D.HeldView
  execFor : ∀ i condition body onIter p m, D.Inv m →
    D.Sat .declaring (Action.execFor n i condition body onIter p) m D.HeldFlow
  iterate : ∀ condition body c w p m, D.Inv m → D.HeldCallable c m.store → D.HeldView w m.store →
    D.Sat .closed (Action.iterate n condition body c w p) m D.HeldFlow

theorem eval_succ (lawful : D.Lawful n) (e : Expr) (good : D.Inv m) :
    D.Sat .closed (Action.eval (n + 1) e) m D.HeldValue := by
  cases e with
  | literal value p => exact D.result good (D.held_constant (Value.isConstant_ofLiteral value))
  | name x p => exact D.name x p good
  | unary op operand p =>
    refine D.sequence (lawful.eval operand m good) fun v m' good' _ _ => ?_
    exact attempt p good' fun w given =>
      D.held_constant (UnaryOp.apply_givesConstant op v w given)
  | binary op left right p =>
    -- Decoration binds a callable; all other operators give constants, which need nothing.
    have operands : ∀ op : BinaryOp, D.Sat .closed
        (do let v ← Action.eval n left; let w ← Action.eval n right
            Action.attempt p (op.apply v w)) m D.HeldValue := by
      intro op
      refine D.sequence (lawful.eval left m good) fun v m₁ good₁ _ _ => ?_
      refine D.sequence (lawful.eval right m₁ good₁) fun w m₂ good₂ _ _ => ?_
      exact attempt p good₂ fun u given =>
        D.held_constant (BinaryOp.apply_givesConstant op v w u given)
    cases op with
    | decorate =>
      refine D.sequence (lawful.evalCallable left m good) fun c m₁ good₁ _ heldLeft => ?_
      refine D.sequence (lawful.evalCallable right m₁ good₁) fun d m₂ good₂ grown heldRight => ?_
      refine D.bindFront good₂ heldRight fun a member => ?_
      rw [List.mem_singleton.mp member]
      exact D.held_mono grown heldLeft
    | _ => exact operands _
  | call callee args p =>
    refine D.sequence (lawful.evalArgs args m good) fun as m₁ good₁ _ heldArgs => ?_
    refine D.sequence (lawful.evalCallable callee m₁ good₁) fun c m₂ good₂ grown heldCallee => ?_
    exact lawful.call c as p m₂ good₂ heldCallee (heldArgs.mono grown)
  | bind callee args p =>
    refine D.sequence (lawful.evalArgs args m good) fun as m₁ good₁ _ heldArgs => ?_
    refine D.sequence (lawful.evalCallable callee m₁ good₁) fun c m₂ good₂ grown heldCallee => ?_
    exact D.bindFront good₂ heldCallee (heldArgs.mono grown)

theorem evalCallable_succ (lawful : D.Lawful n) (e : Expr) (good : D.Inv m) :
    D.Sat .closed (Action.evalCallable (n + 1) e) m D.HeldCallable :=
  D.sequence (lawful.eval e m good) fun _ _ good' _ held => asCallable e.position good' held

theorem evalArgs_succ (lawful : D.Lawful n) (es : List Expr) (good : D.Inv m) :
    D.Sat .closed (Action.evalArgs (n + 1) es) m D.HeldArgs := by
  cases es with
  | nil => exact D.result good nofun
  | cons e es =>
    refine D.sequence (lawful.evalArg e m good) fun a m₁ good₁ _ heldHead => ?_
    refine D.sequence (lawful.evalArgs es m₁ good₁) fun as m₂ good₂ grown heldTail => ?_
    exact D.result good₂ (List.forall_mem_cons.mpr ⟨D.held_mono grown heldHead, heldTail⟩)

theorem evalArg_succ (lawful : D.Lawful n) (e : Expr) (good : D.Inv m) :
    D.Sat .closed (Action.evalArg (n + 1) e) m fun a s => D.Held s a := by
  have byValue : ∀ m', D.Inv m' →
      D.Sat .closed (do return .value (← Action.eval n e)) m' fun a s => D.Held s a :=
    fun m' good' => D.sequence (lawful.eval e m' good') fun _ _ good'' _ held =>
      D.result good'' held
  cases e with
  | name x p =>
    refine D.sequence (D.resolve? x good) fun w? m' good' _ held => ?_
    cases w? with
    | none => exact byValue m' good'
    | some w => exact D.result good' (held w rfl)
  | literal _ _ | unary _ _ _ | binary _ _ _ _ | call _ _ _ | bind _ _ _ => exact byValue m good

theorem test_succ (lawful : D.Lawful n) (e : Expr) (good : D.Inv m) :
    D.Sat .closed (Action.test (n + 1) e) m fun _ _ => True :=
  D.sequence (lawful.eval e m good) fun _ _ good' _ _ => attempt _ good' fun _ _ => trivial

theorem call_succ (lawful : D.Lawful n) (c : Callable) (args : List Arg) (p : Position)
    (good : D.Inv m) (heldCallee : D.HeldCallable c m.store) (heldArgs : D.HeldArgs args m.store) :
    D.Sat .closed (Action.call (n + 1) c args p) m D.HeldValue := by
  cases c with
  | function f =>
    simp only [Action.call]
    refine D.sequence (attempt (Q := fun _ _ => True) p good fun _ _ => trivial) ?_
    intro _ m₁ good₁ grown _
    -- Binding the parameters and entering the frame are one operation of a discipline.
    rw [← bind_assoc]
    refine D.sequence (D.enter p good₁ (heldArgs.mono grown)
      fun m' good' => lawful.execBlock f.body m' good') ?_
    intro flow m₂ good₂ _ heldFlow
    exact flowResult p good₂ heldFlow
  | builtin b stamp => exact D.callBuiltin p good heldCallee heldArgs
  | bound callee bound stamp =>
    obtain ⟨heldInner, heldBound⟩ := D.held_bound heldCallee
    exact lawful.call callee (bound ++ args) p m good heldInner
      (List.forall_mem_append.mpr ⟨heldBound, heldArgs⟩)

theorem execBlock_succ (lawful : D.Lawful n) (body : Block) (good : D.Inv m) :
    D.Sat .closed (Action.execBlock (n + 1) body) m D.HeldFlow :=
  D.inScope good fun good' => lawful.execAll body _ good'

theorem execAll_succ (lawful : D.Lawful n) (body : List Stmt) (good : D.Inv m) :
    D.Sat .declaring (Action.execAll (n + 1) body) m D.HeldFlow := by
  cases body with
  | nil => exact D.result good heldFlow_normal
  | cons s rest =>
    -- A statement that declares nothing has been held to more than is asked of it here.
    have head : D.Sat .declaring (Action.exec n s) m D.HeldFlow := by
      have kept := lawful.exec s m good
      cases declares : s.mode with
      | declaring => rwa [declares] at kept
      | closed => rw [declares] at kept; exact D.close kept
    refine D.sequence head fun flow m' good' _ held => ?_
    cases flow with
    | normal => exact lawful.execAll rest m' good'
    | returned v => exact D.result good' held

/-- A branch or a round of a loop: a condition, and then one of two actions. -/
theorem Lawful.branch (lawful : D.Lawful n) (condition : Expr) {yes no : Action α} {Q : α → Store → Prop}
    (good : D.Inv m) (taken : ∀ m', D.Inv m' → D.Le m.store m'.store → D.Sat .closed yes m' Q)
    (left : ∀ m', D.Inv m' → D.Le m.store m'.store → D.Sat .closed no m' Q) :
    D.Sat .closed (do if ← Action.test n condition then yes else no) m Q := by
  refine D.sequence (lawful.test condition m good) fun holds m' good' grown _ => ?_
  cases holds with
  | true => exact taken m' good' grown
  | false => exact left m' good' grown

theorem exec_succ (lawful : D.Lawful n) (s : Stmt) (good : D.Inv m) :
    D.Sat s.mode (Action.exec (n + 1) s) m D.HeldFlow := by
  cases s with
  | assign a =>
    exact D.sequence (lawful.assign a m good) fun _ _ good' _ _ => D.result good' heldFlow_normal
  | run e p =>
    exact D.sequence (lawful.eval e m good) fun _ _ good' _ _ => D.result good' heldFlow_normal
  | giveBack e p =>
    exact D.sequence (lawful.eval e m good) fun _ _ good' _ held =>
      D.result good' (heldFlow_returned held)
  | branch condition body otherwise p =>
    exact lawful.branch condition good (fun m' good' _ => lawful.execBlock body m' good')
      fun m' good' _ => lawful.execOtherwise otherwise m' good'
  | whileLoop condition body p => exact lawful.execWhile condition body m good
  | forLoop iterator condition body onIter p =>
    exact D.inScope good fun good' => lawful.execFor iterator condition body onIter p _ good'

theorem execOtherwise_succ (lawful : D.Lawful n) (o : Otherwise) (good : D.Inv m) :
    D.Sat .closed (Action.execOtherwise (n + 1) o) m D.HeldFlow := by
  cases o with
  | nothing => exact D.result good heldFlow_normal
  | elif condition body otherwise p =>
    exact lawful.branch condition good (fun m' good' _ => lawful.execBlock body m' good')
      fun m' good' _ => lawful.execOtherwise otherwise m' good'
  | block body p => exact lawful.execBlock body m good

theorem assign_succ (lawful : D.Lawful n) (a : Assignment) (good : D.Inv m) :
    D.Sat a.mode (Action.assign (n + 1) a) m fun _ _ => True := by
  refine D.sequence (D.close (lawful.eval a.value m good)) fun v m' good' _ held => ?_
  unfold Assignment.mode
  cases a.declared? with
  | some t =>
    exact D.sequence (D.declare a.name t a.position good' held) fun _ _ good'' _ _ =>
      D.result good'' trivial
  | none => exact D.reassign a.name a.position good' held

theorem execWhile_succ (lawful : D.Lawful n) (condition : Expr) (body : Block) (good : D.Inv m) :
    D.Sat .closed (Action.execWhile (n + 1) condition body) m D.HeldFlow := by
  refine lawful.branch condition good (fun m₁ good₁ _ => ?_) fun m₁ good₁ _ =>
    D.result good₁ heldFlow_normal
  refine D.sequence (lawful.execBlock body m₁ good₁) fun flow m₂ good₂ _ held => ?_
  cases flow with
  | normal => exact lawful.execWhile condition body m₂ good₂
  | returned v => exact D.result good₂ held

theorem loopView_succ (lawful : D.Lawful n) (i : Iterator) (good : D.Inv m) :
    D.Sat .declaring (Action.loopView (n + 1) i) m D.HeldView := by
  cases i with
  | assign a =>
    have header : D.Sat .declaring (Action.assign n a) m fun _ _ => True := by
      have kept := lawful.assign a m good
      cases declares : a.mode with
      | declaring => rwa [declares] at kept
      | closed => rw [declares] at kept; exact D.close kept
    exact D.sequence header fun _ _ good' _ _ => D.close (resolve a.name a.position good')
  | existing x p => exact D.close (resolve x p good)

theorem execFor_succ (lawful : D.Lawful n) (i : Iterator) (condition : Expr) (body : Block)
    (onIter : Expr) (p : Position) (good : D.Inv m) :
    D.Sat .declaring (Action.execFor (n + 1) i condition body onIter p) m D.HeldFlow := by
  refine D.sequence (lawful.loopView i m good) fun w m₁ good₁ _ heldView => ?_
  refine D.sequence (D.close (lawful.evalCallable onIter m₁ good₁)) ?_
  intro c m₂ good₂ grown heldCallable
  exact D.close (lawful.iterate condition body c w p m₂ good₂ heldCallable
    (D.held_mono grown heldView))

theorem iterate_succ (lawful : D.Lawful n) (condition : Expr) (body : Block) (c : Callable)
    (w : View) (p : Position) (good : D.Inv m) (heldCallable : D.HeldCallable c m.store)
    (heldView : D.HeldView w m.store) :
    D.Sat .closed (Action.iterate (n + 1) condition body c w p) m D.HeldFlow := by
  refine lawful.branch condition good (fun m₁ good₁ grown₁ => ?_) fun m₁ good₁ _ =>
    D.result good₁ heldFlow_normal
  refine D.sequence (lawful.execBlock body m₁ good₁) fun flow m₂ good₂ grown₂ held => ?_
  -- The callable and the view were in hand before the round, and the store has only changed as the
  -- discipline allows.
  have callable₂ := D.held_mono grown₂ (D.held_mono grown₁ heldCallable)
  have view₂ := D.held_mono grown₂ (D.held_mono grown₁ heldView)
  cases flow with
  | returned v => exact D.result good₂ held
  | normal =>
    refine D.sequence (lawful.call c [.view w] p m₂ good₂ callable₂ ?_) ?_
    · intro a member
      rw [List.mem_singleton.mp member]
      exact view₂
    · intro _ m₃ good₃ grown₃ _
      exact lawful.iterate condition body c w p m₃ good₃ (D.held_mono grown₃ callable₂)
        (D.held_mono grown₃ view₂)

/-- Every evaluation keeps every discipline. -/
theorem lawful (D : Discipline) (n : Nat) : D.Lawful n := by
  induction n with
  | zero =>
    -- An evaluation that has no bound left does nothing.
    constructor <;> intros <;> exact D.halt _ ‹_›
  | succ n inductionHypothesis =>
    exact {
      eval := fun e _ good => eval_succ inductionHypothesis e good
      evalCallable := fun e _ good => evalCallable_succ inductionHypothesis e good
      evalArgs := fun es _ good => evalArgs_succ inductionHypothesis es good
      evalArg := fun e _ good => evalArg_succ inductionHypothesis e good
      test := fun e _ good => test_succ inductionHypothesis e good
      call := fun c args p _ good => call_succ inductionHypothesis c args p good
      execBlock := fun body _ good => execBlock_succ inductionHypothesis body good
      execAll := fun body _ good => execAll_succ inductionHypothesis body good
      exec := fun s _ good => exec_succ inductionHypothesis s good
      execOtherwise := fun o _ good => execOtherwise_succ inductionHypothesis o good
      assign := fun a _ good => assign_succ inductionHypothesis a good
      execWhile := fun condition body _ good =>
        execWhile_succ inductionHypothesis condition body good
      loopView := fun i _ good => loopView_succ inductionHypothesis i good
      execFor := fun i condition body onIter p _ good =>
        execFor_succ inductionHypothesis i condition body onIter p good
      iterate := fun condition body c w p _ good =>
        iterate_succ inductionHypothesis condition body c w p good }

end Discipline

end Rightflow
