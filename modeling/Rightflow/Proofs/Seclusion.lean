import Rightflow.Proofs.Indifference
import Rightflow.Proofs.Renaming
import Rightflow.Proofs.ReturnTypes
import Rightflow.Proofs.Surroundings

/-!
# Expressions where nothing is declared

Where no variable can be named and every function is native, an expression comes upon constants and
native callables only, and no body of a function is ever run.  So what is around it matters through
its names alone: it does the same in another frame without variables and among other functions, if
each of its names means what it meant (`transferring`).
-/

namespace Rightflow

/-! ## Native callables -/

/-- Callables that go on in the native code of the language, whatever is bound to them. -/
inductive Callable.IsNative : Callable → Prop
  | builtin {b : Builtin} (stamp : Nat) (standard : b ∈ Builtin.standard) :
      IsNative (.builtin b stamp)
  | bound {callee : Callable} (args : List Arg) (stamp : Nat) (native : callee.IsNative) :
      IsNative (.bound callee args stamp)

/-- Whether a value is no callable but a native one. -/
def Value.IsNative (v : Value) : Prop := ∀ c, v = .callable c → c.IsNative

theorem Value.IsConstant.isNative {v : Value} (constant : v.IsConstant) : v.IsNative := by
  rintro c rfl
  exact absurd rfl constant

def FunctionTable.IsNative (functions : FunctionTable) : Prop :=
  ∀ x c, functions.find? x = some c → c.IsNative

/-! ## Other surroundings -/

/-- Where there is no variable, no name means one. -/
theorem Frame.resolve?_of_empty {f : Frame} (empty : f.views = []) (x : String) :
    f.resolve? x = none := by
  rw [resolve?, empty]
  rfl

namespace Machine

/-- The machine among other functions and in other frames. -/
def amid (functions : FunctionTable) (frame : Frame) (callers : List Frame) (m : Machine) :
    Machine :=
  { m with functions := functions, frame := frame, callers := callers }

theorem unseen_amid (functions : FunctionTable) (frame : Frame) (callers : List Frame) :
    Unseen (amid functions frame callers) :=
  ⟨fun _ => rfl, fun _ => rfl, fun _ _ => rfl, fun _ _ => rfl⟩

/-- Whether the functions of a machine are these, and no variable can be named in it. -/
structure Secluded (functions : FunctionTable) (m : Machine) : Prop where
  functions : m.functions = functions
  views : m.frame.views = []

theorem Secluded.resolve? {functions : FunctionTable} {m : Machine}
    (secluded : m.Secluded functions) (x : String) : m.frame.resolve? x = none :=
  Frame.resolve?_of_empty secluded.views x

end Machine

namespace Action

open Machine

variable {T T' : FunctionTable} {f : Frame} {callers : List Frame} {α β : Type} {m : Machine}

/-- Begun where no variable can be named, an action does the same in other surroundings, and what it
gives has a property. -/
structure Transfers (T T' : FunctionTable) (f : Frame) (callers : List Frame) (action : Action α)
    (m : Machine) (P : α → Prop) : Prop where
  commutes : action.CommutesWith (amid T' f callers) m
  gives : ∀ x m', action m = .ok x m' → m'.Secluded T ∧ P x

namespace Transfers

variable {action : Action α} {next : α → Action β} {P : α → Prop} {Q : β → Prop}

theorem bind (first : Transfers T T' f callers action m P)
    (later : ∀ x m', m'.Secluded T → P x → Transfers T T' f callers (next x) m' Q) :
    Transfers T T' f callers (action >>= next) m Q where
  commutes := first.commutes.bind fun x m' ending =>
    have ⟨secluded, known⟩ := first.gives x m' ending
    (later x m' secluded known).commutes
  gives y m'' ending := by
    rw [bind_run] at ending
    cases begun : action m with
    | error e m' =>
      rw [begun] at ending
      cases ending
    | ok x m' =>
      rw [begun] at ending
      obtain ⟨secluded, known⟩ := first.gives x m' begun
      exact (later x m' secluded known).gives y m'' ending

theorem pure {x : α} (secluded : m.Secluded T) (known : P x) :
    Transfers T T' f callers (pure x) m P where
  commutes := rfl
  gives := by
    rintro _ _ ⟨⟩
    exact ⟨secluded, known⟩

theorem fail (p : Position) (cause : Cause) : Transfers T T' f callers (Action.fail p cause) m P :=
  ⟨rfl, nofun⟩

theorem exhausted : Transfers T T' f callers Action.exhausted m P := ⟨rfl, nofun⟩

theorem attempt (p : Position) {outcome : Except Cause α} (secluded : m.Secluded T)
    (known : ∀ x, outcome = .ok x → P x) :
    Transfers T T' f callers (Action.attempt p outcome) m P := by
  cases outcome with
  | ok x => exact pure secluded (known x rfl)
  | error cause => exact fail p cause

theorem asCallable {v : Value} (p : Position) (secluded : m.Secluded T) (native : v.IsNative) :
    Transfers T T' f callers (Action.asCallable v p) m Callable.IsNative := by
  cases v with
  | callable c => exact pure secluded (native c rfl)
  | none | string _ | int _ | flt _ | bool _ => exact fail p _

theorem bindFront {c : Callable} (args : List Arg) (secluded : m.Secluded T)
    (native : c.IsNative) :
    Transfers T T' f callers (Action.bindFront c args) m Value.IsNative where
  commutes := rfl
  gives := by
    rintro _ _ ⟨⟩
    refine ⟨⟨secluded.functions, secluded.views⟩, ?_⟩
    rintro _ ⟨⟩
    exact .bound args _ native

theorem callBuiltin [Memory] {b : Builtin} (args : List Arg) (p : Position) (secluded : m.Secluded T)
    (standard : b ∈ Builtin.standard) :
    Transfers T T' f callers (Action.callBuiltin b args p) m Value.IsNative where
  commutes := callBuiltin_commutesWith (unseen_amid T' f callers) b args p
  gives v m' ending := by
    have kept := (callBuiltin_keeps (m := m) b args p).undisturbed
    rw [ending] at kept
    refine ⟨⟨kept.functions.trans secluded.functions, ?_⟩, ?_⟩
    · rw [show m'.frame = m.frame from kept.frame, secluded.views]
    · obtain rfl := callBuiltin_gives_none standard ending
      exact Value.IsConstant.isNative nofun

theorem resolve? (x : String) (secluded : m.Secluded T) (empty : f.views = []) :
    Transfers T T' f callers (Action.resolve? x) m (· = none) where
  commutes := by
    have same : f.resolve? x = m.frame.resolve? x :=
      (Frame.resolve?_of_empty empty x).trans (secluded.resolve? x).symm
    exact congrArg (EStateM.Result.ok · _) same
  gives := by
    rintro _ _ ⟨⟩
    exact ⟨secluded, secluded.resolve? x⟩

theorem name {x : String} (p : Position) (secluded : m.Secluded T) (empty : f.views = [])
    (native : T.IsNative) (same : T'.find? x = T.find? x) :
    Transfers T T' f callers (Action.name x p) m Value.IsNative where
  commutes := by
    unfold CommutesWith
    rw [name_run, name_run, secluded.resolve?, secluded.functions]
    simp only [amid, Frame.resolve?_of_empty empty, same]
    cases T.find? x <;> rfl
  gives v m' ending := by
    rw [name_run, secluded.resolve?, secluded.functions] at ending
    dsimp only at ending
    cases found : T.find? x with
    | none => rw [found] at ending; cases ending
    | some c =>
      rw [found] at ending
      cases ending
      refine ⟨secluded, ?_⟩
      rintro _ ⟨⟩
      exact native x c found

end Transfers

/-! ## Evaluation -/

/-- Under a bound, expressions whose names mean the same do the same in other surroundings, and so
do calls of native callables. -/
structure Transferring [Memory] (T T' : FunctionTable) (f : Frame) (callers : List Frame)
    (n : Nat) : Prop where
  eval : ∀ e m, m.Secluded T → (∀ x ∈ e.names, T'.find? x = T.find? x) →
    Transfers T T' f callers (Action.eval n e) m Value.IsNative
  evalCallable : ∀ e m, m.Secluded T → (∀ x ∈ e.names, T'.find? x = T.find? x) →
    Transfers T T' f callers (Action.evalCallable n e) m Callable.IsNative
  evalArgs : ∀ es m, m.Secluded T → (∀ x ∈ Expr.namesAll es, T'.find? x = T.find? x) →
    Transfers T T' f callers (Action.evalArgs n es) m fun _ => True
  evalArg : ∀ e m, m.Secluded T → (∀ x ∈ e.names, T'.find? x = T.find? x) →
    Transfers T T' f callers (Action.evalArg n e) m fun _ => True
  call : ∀ c args p m, m.Secluded T → c.IsNative →
    Transfers T T' f callers (Action.call n c args p) m Value.IsNative

section

variable [Memory] {n : Nat} (inside : Transferring T T' f callers n)

include inside

theorem eval_succ_transfers (native : T.IsNative) (empty : f.views = []) (e : Expr)
    (secluded : m.Secluded T) (same : ∀ x ∈ e.names, T'.find? x = T.find? x) :
    Transfers T T' f callers (Action.eval (n + 1) e) m Value.IsNative := by
  cases e with
  | literal value p => exact .pure secluded (Value.isConstant_ofLiteral value).isNative
  | name x p => exact .name p secluded empty native (same x List.mem_cons_self)
  | unary op operand p =>
    refine (inside.eval operand m secluded same).bind fun v m₁ secluded₁ _ => ?_
    exact .attempt p secluded₁ fun w given => (op.apply_givesConstant v w given).isNative
  | binary op left right p =>
    obtain ⟨sameLeft, sameRight⟩ := List.forall_mem_append.mp same
    have operands (op : BinaryOp) : Transfers T T' f callers (do
        let v ← Action.eval n left
        let w ← Action.eval n right
        Action.attempt p (op.apply v w)) m Value.IsNative := by
      refine (inside.eval left m secluded sameLeft).bind fun v m₁ secluded₁ _ => ?_
      refine (inside.eval right m₁ secluded₁ sameRight).bind fun w m₂ secluded₂ _ => ?_
      exact .attempt p secluded₂ fun u given => (op.apply_givesConstant v w u given).isNative
    cases op with
    | decorate =>
      refine (inside.evalCallable left m secluded sameLeft).bind fun c m₁ secluded₁ _ => ?_
      refine (inside.evalCallable right m₁ secluded₁ sameRight).bind fun d m₂ secluded₂ known => ?_
      exact .bindFront _ secluded₂ known
    | _ => exact operands _
  | call callee args p =>
    obtain ⟨sameArgs, sameCallee⟩ := List.forall_mem_append.mp same
    refine (inside.evalArgs args m secluded sameArgs).bind fun as m₁ secluded₁ _ => ?_
    refine (inside.evalCallable callee m₁ secluded₁ sameCallee).bind fun c m₂ secluded₂ known => ?_
    exact inside.call c as p m₂ secluded₂ known
  | bind callee args p =>
    obtain ⟨sameArgs, sameCallee⟩ := List.forall_mem_append.mp same
    refine (inside.evalArgs args m secluded sameArgs).bind fun as m₁ secluded₁ _ => ?_
    refine (inside.evalCallable callee m₁ secluded₁ sameCallee).bind fun c m₂ secluded₂ known => ?_
    exact .bindFront as secluded₂ known

theorem evalArgs_succ_transfers (es : List Expr) (secluded : m.Secluded T)
    (same : ∀ x ∈ Expr.namesAll es, T'.find? x = T.find? x) :
    Transfers T T' f callers (Action.evalArgs (n + 1) es) m fun _ => True := by
  cases es with
  | nil => exact .pure secluded trivial
  | cons e es =>
    obtain ⟨sameFirst, sameRest⟩ := List.forall_mem_append.mp same
    refine (inside.evalArg e m secluded sameFirst).bind fun a m₁ secluded₁ _ => ?_
    refine (inside.evalArgs es m₁ secluded₁ sameRest).bind fun as m₂ secluded₂ _ => ?_
    exact .pure secluded₂ trivial

theorem evalArg_succ_transfers (empty : f.views = []) (e : Expr) (secluded : m.Secluded T)
    (same : ∀ x ∈ e.names, T'.find? x = T.find? x) :
    Transfers T T' f callers (Action.evalArg (n + 1) e) m fun _ => True := by
  have byValue (m : Machine) (secluded : m.Secluded T) : Transfers T T' f callers
      (do return Arg.value (← Action.eval n e)) m fun _ => True :=
    (inside.eval e m secluded same).bind fun v m₁ secluded₁ _ => .pure secluded₁ trivial
  cases e with
  | name x p =>
    refine (Transfers.resolve? x secluded empty).bind fun found m₁ secluded₁ none => ?_
    subst none
    exact byValue m₁ secluded₁
  | literal _ _ | unary _ _ _ | binary _ _ _ _ | call _ _ _ | bind _ _ _ => exact byValue m secluded

/-- Calls of native callables go on in native code. -/
theorem call_succ_transfers {c : Callable} (args : List Arg) (p : Position)
    (secluded : m.Secluded T) (native : c.IsNative) :
    Transfers T T' f callers (Action.call (n + 1) c args p) m Value.IsNative := by
  cases native with
  | builtin stamp standard => exact .callBuiltin args p secluded standard
  | bound bound stamp native => exact inside.call _ (bound ++ args) p m secluded native

end

theorem transferring [Memory] (native : T.IsNative) (empty : f.views = []) (n : Nat) :
    Transferring T T' f callers n := by
  induction n with
  | zero =>
    exact ⟨fun _ _ _ _ => .exhausted, fun _ _ _ _ => .exhausted, fun _ _ _ _ => .exhausted,
      fun _ _ _ _ => .exhausted, fun _ _ _ _ _ _ => .exhausted⟩
  | succ n inside =>
    exact {
      eval := fun e _ => eval_succ_transfers inside native empty e
      evalCallable := fun e m secluded same =>
        (inside.eval e m secluded same).bind fun _ _ secluded₁ => .asCallable _ secluded₁
      evalArgs := fun es _ => evalArgs_succ_transfers inside es
      evalArg := fun e _ => evalArg_succ_transfers inside empty e
      call := fun _ args p _ => call_succ_transfers inside args p }

end Action

end Rightflow
