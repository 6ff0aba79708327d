import Rightflow.Proofs.Exhaustion

/-!
# Greater bounds

The bound of an evaluation decides whether it comes to an end, and nothing else.  An action
approximates another one if both end in the same way, unless the first reaches its bound; and every
evaluation approximates the same one under a greater bound (`approximating`).  So what a program
does, if it comes to an end at all, is the same under all bounds that are great enough (`Comes`).
-/

namespace Rightflow

namespace Action

variable {α β : Type}

/-- Begun in a machine, the second action ends as the first one does, unless that one reaches its
bound. -/
def Approximates (action greater : Action α) (m : Machine) : Prop :=
  ¬ action.Exhausts m → greater m = action m

variable {action greater : Action α} {m : Machine}

namespace Approximates

theorem refl (action : Action α) (m : Machine) : action.Approximates action m := fun _ => rfl

theorem exhausted : (Action.exhausted : Action α).Approximates greater m :=
  fun ends => absurd ⟨m, rfl⟩ ends

/-- If the first action comes to an end, so does the second. -/
theorem not_exhausts (approximates : action.Approximates greater m)
    (ends : ¬ action.Exhausts m) : ¬ greater.Exhausts m := by
  unfold Exhausts
  rwa [approximates ends]

theorem trans {greatest : Action α} (first : action.Approximates greater m)
    (second : greater.Approximates greatest m) : action.Approximates greatest m :=
  fun ends => (second (first.not_exhausts ends)).trans (first ends)

theorem bind {next nextGreater : α → Action β} (first : action.Approximates greater m)
    (later : ∀ x m', action m = .ok x m' → (next x).Approximates (nextGreater x) m') :
    (action >>= next).Approximates (greater >>= nextGreater) m := by
  intro ends
  rw [exhausts_bind_iff, not_or] at ends
  obtain ⟨firstEnds, laterEnds⟩ := ends
  rw [bind_run, bind_run, first firstEnds]
  cases ending : action m with
  | ok x m' => exact later x m' ending fun exhausts => laterEnds ⟨x, m', ending, exhausts⟩
  | error e m' => rfl

theorem inScope (inside : action.Approximates greater m.pushScope) :
    (Action.inScope action).Approximates (Action.inScope greater) m := by
  intro ends
  rw [exhausts_inScope_iff] at ends
  rw [inScope_run, inScope_run, inside ends]

theorem inFrame {f : Frame} (inside : action.Approximates greater (m.pushFrame f)) :
    (Action.inFrame f action).Approximates (Action.inFrame f greater) m := by
  intro ends
  rw [exhausts_inFrame_iff] at ends
  rw [inFrame_run, inFrame_run, inside ends]

end Approximates

/-! ## The evaluator -/

section

variable [Host]

/-- Every evaluation under a bound approximates the same one under another bound. -/
structure Approximating (n k : Nat) : Prop where
  eval : ∀ e m, (Action.eval n e).Approximates (Action.eval k e) m
  evalCallable : ∀ e m, (Action.evalCallable n e).Approximates (Action.evalCallable k e) m
  evalArgs : ∀ es m, (Action.evalArgs n es).Approximates (Action.evalArgs k es) m
  evalArg : ∀ e m, (Action.evalArg n e).Approximates (Action.evalArg k e) m
  test : ∀ e m, (Action.test n e).Approximates (Action.test k e) m
  call : ∀ c args p m, (Action.call n c args p).Approximates (Action.call k c args p) m
  execBlock : ∀ body m, (Action.execBlock n body).Approximates (Action.execBlock k body) m
  execAll : ∀ body m, (Action.execAll n body).Approximates (Action.execAll k body) m
  exec : ∀ s m, (Action.exec n s).Approximates (Action.exec k s) m
  execOtherwise : ∀ o m,
    (Action.execOtherwise n o).Approximates (Action.execOtherwise k o) m
  assign : ∀ a m, (Action.assign n a).Approximates (Action.assign k a) m
  execWhile : ∀ condition body m,
    (Action.execWhile n condition body).Approximates (Action.execWhile k condition body) m
  loopView : ∀ i m, (Action.loopView n i).Approximates (Action.loopView k i) m
  execFor : ∀ i condition body onIter p m,
    (Action.execFor n i condition body onIter p).Approximates
      (Action.execFor k i condition body onIter p) m
  iterate : ∀ condition body c w p m,
    (Action.iterate n condition body c w p).Approximates
      (Action.iterate k condition body c w p) m

namespace Approximating

open Approximates

variable {n k : Nat}

theorem eval_succ (approximating : Approximating n k) (e : Expr) :
    (Action.eval (n + 1) e).Approximates (Action.eval (k + 1) e) m := by
  cases e with
  | literal value p => exact refl _ m
  | name x p => exact refl _ m
  | unary op operand p => exact (approximating.eval operand m).bind fun v m₁ _ => refl _ m₁
  | binary op left right p =>
    have operands (op : BinaryOp) : Approximates
        (do let v ← Action.eval n left; let w ← Action.eval n right; attempt p (op.apply v w))
        (do let v ← Action.eval k left; let w ← Action.eval k right; attempt p (op.apply v w)) m :=
      (approximating.eval left m).bind fun v m₁ _ =>
        (approximating.eval right m₁).bind fun w m₂ _ => refl _ m₂
    cases op with
    | decorate =>
      exact (approximating.evalCallable left m).bind fun c m₁ _ =>
        (approximating.evalCallable right m₁).bind fun d m₂ _ => refl _ m₂
    | _ => exact operands _
  | call callee args p =>
    exact (approximating.evalArgs args m).bind fun as m₁ _ =>
      (approximating.evalCallable callee m₁).bind fun c m₂ _ => approximating.call c as p m₂
  | bind callee args p =>
    exact (approximating.evalArgs args m).bind fun as m₁ _ =>
      (approximating.evalCallable callee m₁).bind fun c m₂ _ => refl _ m₂

theorem evalArgs_succ (approximating : Approximating n k) (es : List Expr) :
    (Action.evalArgs (n + 1) es).Approximates (Action.evalArgs (k + 1) es) m := by
  cases es with
  | nil => exact refl _ m
  | cons e es =>
    exact (approximating.evalArg e m).bind fun a m₁ _ =>
      (approximating.evalArgs es m₁).bind fun as m₂ _ => refl _ m₂

theorem evalArg_succ (approximating : Approximating n k) (e : Expr) :
    (Action.evalArg (n + 1) e).Approximates (Action.evalArg (k + 1) e) m := by
  have byValue (m' : Machine) : Approximates (do return Arg.value (← Action.eval n e))
      (do return Arg.value (← Action.eval k e)) m' :=
    (approximating.eval e m').bind fun v m'' _ => refl _ m''
  cases e with
  | name x p =>
    refine (refl (resolve? x) m).bind fun w? m' _ => ?_
    cases w? with
    | some w => exact refl _ m'
    | none => exact byValue m'
  | literal _ _ | unary _ _ _ | binary _ _ _ _ | call _ _ _ | bind _ _ _ => exact byValue m

theorem call_succ (approximating : Approximating n k) (c : Callable) (args : List Arg)
    (p : Position) :
    (Action.call (n + 1) c args p).Approximates (Action.call (k + 1) c args p) m := by
  cases c with
  | builtin b stamp => exact refl _ m
  | bound callee bound stamp => exact approximating.call callee (bound ++ args) p m
  | function f =>
    simp only [Action.call]
    refine (refl (attempt p _) m).bind fun _ m₁ _ => ?_
    refine (refl (bindParams p f.params args) m₁).bind fun views m₂ _ => ?_
    have entered := Approximates.inFrame (approximating.execBlock f.body
      (m₂.pushFrame { params := views }))
    exact entered.bind fun flow m₃ _ => refl _ m₃

/-- A branch or a round of a loop: a condition, and then one of two actions. -/
theorem branch (approximating : Approximating n k) (condition : Expr)
    {yes no yesGreater noGreater : Action α} (taken : ∀ m', yes.Approximates yesGreater m')
    (left : ∀ m', no.Approximates noGreater m') :
    Approximates (do if ← Action.test n condition then yes else no)
      (do if ← Action.test k condition then yesGreater else noGreater) m := by
  refine (approximating.test condition m).bind fun holds m' _ => ?_
  cases holds with
  | true => exact taken m'
  | false => exact left m'

omit [Host] in
/-- What is done behind an action that has not returned. -/
theorem unlessReturned {go goGreater : Action Flow} (flow : Flow)
    (later : go.Approximates goGreater m) :
    Approximates (match flow with | .returned v => pure (.returned v) | .normal => go)
      (match flow with | .returned v => pure (.returned v) | .normal => goGreater) m := by
  cases flow with
  | normal => exact later
  | returned v => exact refl _ m

theorem execAll_succ (approximating : Approximating n k) (body : List Stmt) :
    (Action.execAll (n + 1) body).Approximates (Action.execAll (k + 1) body) m := by
  cases body with
  | nil => exact refl _ m
  | cons s rest =>
    exact (approximating.exec s m).bind fun flow m₁ _ =>
      unlessReturned flow (approximating.execAll rest m₁)

theorem exec_succ (approximating : Approximating n k) (s : Stmt) :
    (Action.exec (n + 1) s).Approximates (Action.exec (k + 1) s) m := by
  cases s with
  | assign a => exact (approximating.assign a m).bind fun _ m₁ _ => refl _ m₁
  | run e p => exact (approximating.eval e m).bind fun _ m₁ _ => refl _ m₁
  | giveBack e p => exact (approximating.eval e m).bind fun v m₁ _ => refl _ m₁
  | branch condition body otherwise p =>
    exact approximating.branch condition (approximating.execBlock body)
      (approximating.execOtherwise otherwise)
  | whileLoop condition body p => exact approximating.execWhile condition body m
  | forLoop iterator condition body onIter p =>
    exact Approximates.inScope (approximating.execFor iterator condition body onIter p _)

theorem execOtherwise_succ (approximating : Approximating n k) (o : Otherwise) :
    (Action.execOtherwise (n + 1) o).Approximates (Action.execOtherwise (k + 1) o) m := by
  cases o with
  | nothing => exact refl _ m
  | elif condition body otherwise p =>
    exact approximating.branch condition (approximating.execBlock body)
      (approximating.execOtherwise otherwise)
  | block body p => exact approximating.execBlock body m

theorem assign_succ (approximating : Approximating n k) (a : Assignment) :
    (Action.assign (n + 1) a).Approximates (Action.assign (k + 1) a) m :=
  (approximating.eval a.value m).bind fun _ m₁ _ => refl _ m₁

theorem execWhile_succ (approximating : Approximating n k) (condition : Expr) (body : Block) :
    (Action.execWhile (n + 1) condition body).Approximates
      (Action.execWhile (k + 1) condition body) m :=
  approximating.branch condition
    (fun m₁ => (approximating.execBlock body m₁).bind fun flow m₂ _ =>
      unlessReturned flow (approximating.execWhile condition body m₂))
    fun m₁ => refl _ m₁

theorem loopView_succ (approximating : Approximating n k) (i : Iterator) :
    (Action.loopView (n + 1) i).Approximates (Action.loopView (k + 1) i) m := by
  cases i with
  | assign a => exact (approximating.assign a m).bind fun _ m₁ _ => refl _ m₁
  | existing x p => exact refl _ m

theorem execFor_succ (approximating : Approximating n k) (i : Iterator) (condition : Expr)
    (body : Block) (onIter : Expr) (p : Position) :
    (Action.execFor (n + 1) i condition body onIter p).Approximates
      (Action.execFor (k + 1) i condition body onIter p) m :=
  (approximating.loopView i m).bind fun w m₁ _ =>
    (approximating.evalCallable onIter m₁).bind fun c m₂ _ =>
      approximating.iterate condition body c w p m₂

theorem iterate_succ (approximating : Approximating n k) (condition : Expr) (body : Block)
    (c : Callable) (w : View) (p : Position) :
    (Action.iterate (n + 1) condition body c w p).Approximates
      (Action.iterate (k + 1) condition body c w p) m :=
  approximating.branch condition
    (fun m₁ => (approximating.execBlock body m₁).bind fun flow m₂ _ =>
      unlessReturned flow ((approximating.call c [.view w] p m₂).bind fun _ m₃ _ =>
        approximating.iterate condition body c w p m₃))
    fun m₁ => refl _ m₁

end Approximating

/-- Every evaluation approximates the same one under a greater bound. -/
theorem approximating {n k : Nat} (le : n ≤ k) : Approximating n k := by
  induction n generalizing k with
  | zero => constructor <;> intros <;> exact .exhausted
  | succ n inductionHypothesis =>
    obtain ⟨k, rfl⟩ := Nat.exists_eq_add_one_of_ne_zero (Nat.ne_zero_of_lt le)
    have smaller := inductionHypothesis (Nat.le_of_succ_le_succ le)
    exact {
      eval := fun e _ => smaller.eval_succ e
      evalCallable := fun e m => (smaller.eval e m).bind fun _ m₁ _ => .refl _ m₁
      evalArgs := fun es _ => smaller.evalArgs_succ es
      evalArg := fun e _ => smaller.evalArg_succ e
      test := fun e m => (smaller.eval e m).bind fun _ m₁ _ => .refl _ m₁
      call := fun c args p _ => smaller.call_succ c args p
      execBlock := fun body m => .inScope (smaller.execAll body _)
      execAll := fun body _ => smaller.execAll_succ body
      exec := fun s _ => smaller.exec_succ s
      execOtherwise := fun o _ => smaller.execOtherwise_succ o
      assign := fun a _ => smaller.assign_succ a
      execWhile := fun condition body _ => smaller.execWhile_succ condition body
      loopView := fun i _ => smaller.loopView_succ i
      execFor := fun i condition body onIter p _ => smaller.execFor_succ i condition body onIter p
      iterate := fun condition body c w p _ => smaller.iterate_succ condition body c w p }

end

/-! ## What evaluations come to -/

/-- What an action that takes a bound comes to under some bound without reaching it. -/
def Comes (action : Nat → Action α) (m : Machine) (ending : Ending α) : Prop :=
  ∃ n, action n m = ending ∧ ¬ (action n).Exhausts m

/-- An action comes to all that actions come to that approximate it. -/
theorem Comes.of_approximates {action greater : Nat → Action α} {ending : Ending α}
    (approximates : ∀ n, ∃ k, (action n).Approximates (greater k) m)
    (comes : Comes action m ending) : Comes greater m ending := by
  obtain ⟨n, rfl, ends⟩ := comes
  obtain ⟨k, approximates⟩ := approximates n
  exact ⟨k, approximates ends, approximates.not_exhausts ends⟩

/-- What comes to an end under some bound does so under arbitrarily great ones. -/
theorem Comes.exists_above {action : Nat → Action α} {ending : Ending α}
    (monotone : ∀ n k, n ≤ k → (action n).Approximates (action k) m)
    (comes : Comes action m ending) (k : Nat) :
    ∃ n, action (n + k) m = ending ∧ ¬ (action (n + k)).Exhausts m := by
  obtain ⟨n, rfl, ends⟩ := comes
  have greater := monotone n (n + k) (Nat.le_add_right n k)
  exact ⟨n, greater ends, greater.not_exhausts ends⟩

theorem exhausts_iff_of_onMachine {inner : Action α} {m' : Machine} {change : Machine → Machine}
    (run : action m = Ending.onMachine (inner m') change) :
    action.Exhausts m ↔ inner.Exhausts m' := by
  unfold Exhausts
  rw [run]
  cases inner m' with
  | ok x m'' => exact ⟨nofun, nofun⟩
  | error e m'' => simp [Ending.onMachine]

/-- An action that goes on in another one, whatever the bound is from some bound on, comes to the
ends that the other one comes to. -/
theorem comes_iff_of_onMachine {action inner : Nat → Action α} {m' : Machine}
    {change : Machine → Machine} {k j : Nat} {ending : Ending α}
    (monotone : ∀ n k, n ≤ k → (action n).Approximates (action k) m)
    (innerMonotone : ∀ n k, n ≤ k → (inner n).Approximates (inner k) m')
    (run : ∀ n, action (n + k) m = Ending.onMachine (inner (n + j) m') change) :
    Comes action m ending ↔
      ∃ before, Comes inner m' before ∧ ending = Ending.onMachine before change := by
  constructor
  · intro comes
    obtain ⟨n, rfl, ends⟩ := comes.exists_above monotone k
    rw [exhausts_iff_of_onMachine (run n)] at ends
    exact ⟨_, ⟨n + j, rfl, ends⟩, run n⟩
  · rintro ⟨before, comes, rfl⟩
    obtain ⟨n, rfl, ends⟩ := comes.exists_above innerMonotone j
    rw [← exhausts_iff_of_onMachine (run n)] at ends
    exact ⟨n + k, run n, ends⟩

end Action

end Rightflow
