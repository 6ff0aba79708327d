import Rightflow.Proofs.Bounds
import Rightflow.Proofs.Immutability
import Rightflow.Proofs.Views

/-!
# Loops with an iterator as loops without one

A loop `for i, condition, f` looks its variable and its function up once, before the first round.
Written as a block, it becomes a `while` that looks both up in every round, below the scope of the
body's own (`whileBlock`).  Both do the same in every state of a session (`for_loop_is_while_loop`).

What is looked up again is what was found before the first round (`InLoop`): nothing that a round
does changes the frame, the functions or a variable of a function type, which is never mutable.
-/

namespace Rightflow

/-! ## The block -/

namespace Iterator

/-- The name of the variable of a loop. -/
def name : Iterator → String
  | .assign a => a.name
  | .existing x _ => x

/-- What a loop does before its rounds, as statements. -/
def header : Iterator → List Stmt
  | .assign a => [.assign a]
  | .existing _ _ => []

end Iterator

/-- Where the nodes stand that only the loop without an iterator has. -/
structure LoopPlaces where
  loop : Position
  always : Position
  branch : Position
  callee : Position
  argument : Position
  run : Position

/-- A round of a loop as a block: the body, in a branch that is always taken, and a call with the
variable. -/
def roundBlock (x : String) (body : Block) (f : String) (p : Position) (places : LoopPlaces) :
    Block :=
  [.branch (.literal (.bool true) places.always) body .nothing places.branch,
   .run (.call (.name f places.callee) [.name x places.argument] p) places.run]

/-- A loop with an iterator as a block without one. -/
def whileBlock (i : Iterator) (condition : Expr) (body : Block) (f : String) (p : Position)
    (places : LoopPlaces) : Block :=
  i.header ++ [.whileLoop condition (roundBlock i.name body f p places) places.loop]

/-! ## Between the rounds -/

theorem Value.isMutable_of_hasType_callable {c : Callable} {t : Ty}
    (typed : (Value.callable c).hasType t = true) : t.isMutable = false := by
  cases t with
  | func ret params => rfl
  | base b mutable => cases b <;> cases typed

/-- A state in a loop: the names of its variable and of its function mean what they meant before the
first round. -/
structure InLoop (x f : String) (w : View) (c : Callable) (m : Machine) : Prop where
  ruled : Grant.honest.Rules m
  iterator : m.frame.resolve? x = some w
  onIter : ∀ q, Action.name f q m = .ok (.callable c) m

namespace InLoop

open Rightflow.Action

variable {x f : String} {w : View} {c : Callable} {m m' : Machine} {n : Nat}

theorem after (loop : InLoop x f w c m) (turned : Grant.honest.Turns m m')
    (frame : m'.frame = m.frame) : InLoop x f w c m' where
  ruled := turned.ruled
  iterator := by rw [frame, loop.iterator]
  onIter q := by
    have before := loop.onIter q
    rw [name_run] at before ⊢
    rw [frame, turned.functions]
    cases means : m.frame.resolve? f with
    | none =>
      rw [means] at before
      dsimp only at before ⊢
      cases defined : m.functions.find? f with
      | some d => rw [defined] at before; cases before; rfl
      | none => rw [defined] at before; cases before
    | some u =>
      rw [means] at before
      have holds : (m.store.get u.cell).value = .callable c := by
        injection before
      have existing : u.cell < m.store.size := (loop.ruled.covers_of_resolve? means).1
      have typed := loop.ruled.store.typed u.cell existing
      rw [holds] at typed
      -- The variable is of a function type, so that no view under the grant lets it be written.
      have immutable := Value.isMutable_of_hasType_callable typed
      have same : m'.store.get u.cell = m.store.get u.cell := by
        rcases turned.store.written u.cell existing with same | ⟨v, covered, cell, mutable⟩
        · exact same
        · have written := covered.2 mutable
          rw [cell, turned.store.type u.cell existing, immutable] at written
          cases written
      dsimp only
      rw [same, holds]

/-- An empty scope hides nothing. -/
theorem pushScope (loop : InLoop x f w c m) : InLoop x f w c m.pushScope where
  ruled := ⟨loop.ruled.store, loop.ruled.frame.pushScope, loop.ruled.functions⟩
  iterator := loop.iterator
  onIter q := by
    rw [(name_seesViews f q).pushScope, loop.onIter q]
    rfl

variable {α : Type} {action : Action α} {Q Q' : α → Store → Prop} {y : α}

/-- What closes its scopes again leads to a state in the same loop. -/
theorem step [Host] (loop : InLoop x f w c m)
    (turns : Grant.honest.discipline.Sat .closed action m Q)
    (sees : seeingViews.Sat .closed action m Q') (ending : action m = .ok y m') :
    InLoop x f w c m' := by
  have leads : Leads (Grant.honest.Turns m) action m Q := turns
  exact loop.after (leads.ok ending).1 (sees.kept.ok ending).1.frame

theorem test [Host] (loop : InLoop x f w c m) {condition : Expr} {holds : Bool}
    (ending : Action.test n condition m = .ok holds m') : InLoop x f w c m' :=
  loop.step ((Grant.honest.discipline.lawful n).test condition m loop.ruled)
    ((seeingViews.lawful n).test condition m trivial) ending

theorem execBlock [Host] (loop : InLoop x f w c m) {body : Block} {flow : Flow}
    (ending : Action.execBlock n body m = .ok flow m') : InLoop x f w c m' :=
  loop.step ((Grant.honest.discipline.lawful n).execBlock body m loop.ruled)
    ((seeingViews.lawful n).execBlock body m trivial) ending

theorem call [Host] (loop : InLoop x f w c m) {p : Position} {v : Value}
    (ending : Action.call n c [.view w] p m = .ok v m') : InLoop x f w c m' := by
  have heldCallable := ((name_turns loop.ruled f p).ok (loop.onIter p)).2
  have heldView := Grant.allowsArg_view.mpr (loop.ruled.covers_of_resolve? loop.iterator)
  exact loop.step ((Grant.honest.discipline.lawful n).call c [.view w] p m loop.ruled heldCallable
      (List.forall_mem_singleton.mpr heldView))
    ((seeingViews.lawful n).call c [.view w] p m trivial trivial fun _ _ => trivial) ending

end InLoop

/-! ## One round -/

namespace Action

variable {x f : String} {w : View} {c : Callable} {m m₁ : Machine} {n k : Nat}
  {condition : Expr} {body : Block} {p : Position}

/-- A round of a loop behind its condition. -/
def round [Host] (n k : Nat) (body : Block) (c : Callable) (w : View) (p : Position) :
    Action Flow := do
  match ← execBlock n body with
  | .returned v => return .returned v
  | .normal =>
    let _ ← call k c [.view w] p
    return .normal

theorem iterate_succ [Host] : iterate (n + 1) condition body c w p = (do
    if ← test n condition then
      match ← round n n body c w p with
      | .returned v => return .returned v
      | .normal => iterate n condition body c w p
    else return .normal : Action Flow) := by
  have rest (flow : Flow) : ((match flow with
        | .returned v => pure (.returned v)
        | .normal => call n c [.view w] p >>= fun _ => pure .normal : Action Flow) >>= fun flow =>
          match flow with
          | .returned v => pure (.returned v)
          | .normal => iterate n condition body c w p) =
      match flow with
      | .returned v => pure (.returned v)
      | .normal => call n c [.view w] p >>= fun _ => iterate n condition body c w p := by
    cases flow with
    | returned v => rw [pure_bind]
    | normal => simp only [bind_assoc, pure_bind]
  refine congrArg (test n condition >>= ·) (funext fun holds => ?_)
  cases holds with
  | false => rfl
  | true => exact ((bind_assoc _ _ _).trans (congrArg (execBlock n body >>= ·) (funext rest))).symm

/-- The call at the end of a round. -/
theorem eval_call_in_loop [Host] (loop : InLoop x f w c m) (q r : Position) :
    eval (n + 3) (.call (.name f q) [.name x r] p) m = call (n + 2) c [.view w] p m := by
  have args : evalArgs (n + 2) [.name x r] m = .ok [.view w] m := by
    simp only [evalArgs, evalArg, bind_run, resolve?_run, loop.iterator]
    rfl
  have callee : evalCallable (n + 2) (.name f q) m = .ok c m := by
    simp only [evalCallable, eval, bind_run, loop.onIter q]
    rfl
  simp only [eval, bind_run, args, callee]

theorem execBlock_roundBlock [Host] (loop : InLoop x f w c m) (places : LoopPlaces) :
    execBlock (n + 7) (roundBlock x body f p places) m = round (n + 4) (n + 2) body c w p m := by
  have always (m : Machine) :
      test (n + 4) (.literal (.bool true) places.always) m = .ok true m := rfl
  have inner := ((seeingViews.lawful (n + 4)).execBlock body m trivial).pushScope
  unfold round roundBlock
  rw [execBlock, inScope_run, bind_run]
  simp only [execAll, exec, bind_run, always, if_true, inner]
  cases ending : execBlock (n + 4) body m with
  | error e m₁ => rfl
  | ok flow m₁ =>
    cases flow with
    | returned v => rfl
    | normal =>
      have later := loop.execBlock ending
      have called := ((seeingViews.lawful (n + 2)).call c [.view w] p m₁ trivial trivial
        fun _ _ => trivial).pushScope
      simp only [Ending.onMachine, bind_run, eval_call_in_loop later.pushScope, called]
      cases call (n + 2) c [.view w] p m₁ <;> rfl

theorem round_approximates [Host] {l j : Nat} (body : n ≤ l) (called : k ≤ j) (b : Block) :
    (round n k b c w p).Approximates (round l j b c w p) m := by
  refine ((approximating body).execBlock b m).bind fun flow m₁ _ => ?_
  cases flow with
  | returned v => exact .refl _ m₁
  | normal => exact ((approximating called).call c [.view w] p m₁).bind fun _ m₂ _ => .refl _ m₂

end Action

namespace InLoop

open Rightflow.Action

variable {x f : String} {w : View} {c : Callable} {m : Machine}

theorem round [Host] (loop : InLoop x f w c m) {n k : Nat} {body : Block} {p : Position}
    {flow : Flow} {m' : Machine} (ending : Action.round n k body c w p m = .ok flow m') :
    InLoop x f w c m' := by
  rw [Action.round, bind_run] at ending
  cases inner : Action.execBlock n body m with
  | error e m₁ => rw [inner] at ending; cases ending
  | ok flow m₁ =>
    rw [inner] at ending
    have later := loop.execBlock inner
    cases flow with
    | returned v => cases ending; exact later
    | normal =>
      dsimp only at ending
      rw [bind_run] at ending
      cases called : Action.call k c [.view w] p m₁ with
      | error e m₂ => rw [called] at ending; cases ending
      | ok v m₂ => rw [called] at ending; cases ending; exact later.call called

/-! ## All rounds -/

variable (condition : Expr) (body : Block) (p : Position) (places : LoopPlaces)

/-- The rounds of a loop with an iterator are those of a loop without one under a greater bound. -/
theorem iterate_approximates [Host] (loop : InLoop x f w c m) (n : Nat) :
    (iterate n condition body c w p).Approximates
      (execWhile (n + 7) condition (roundBlock x body f p places)) m := by
  induction n generalizing m with
  | zero => exact .exhausted
  | succ n inductionHypothesis =>
    rw [iterate_succ]
    refine ((approximating (Nat.le_add_right n 7)).test condition m).bind fun holds m₁ tested => ?_
    have loop₁ := loop.test tested
    cases holds with
    | false => exact .refl _ m₁
    | true =>
      have sameRound : (Action.round n n body c w p).Approximates
          (Action.execBlock (n + 7) (roundBlock x body f p places)) m₁ := by
        intro ends
        rw [execBlock_roundBlock loop₁]
        exact round_approximates (Nat.le_add_right n 4) (Nat.le_add_right n 2) body ends
      refine sameRound.bind fun flow m₂ ran => ?_
      cases flow with
      | returned v => exact .refl _ m₂
      | normal => exact inductionHypothesis (loop₁.round ran)

/-- The rounds of a loop without an iterator are those of the loop with one under a greater
bound. -/
theorem execWhile_approximates [Host] (loop : InLoop x f w c m) (n : Nat) :
    (execWhile n condition (roundBlock x body f p places)).Approximates
      (iterate (n + 4) condition body c w p) m := by
  induction n generalizing m with
  | zero => exact .exhausted
  | succ n inductionHypothesis =>
    rw [show n + 1 + 4 = n + 4 + 1 by omega, iterate_succ]
    refine ((approximating (Nat.le_add_right n 4)).test condition m).bind fun holds m₁ tested => ?_
    have loop₁ := loop.test tested
    cases holds with
    | false => exact .refl _ m₁
    | true =>
      have sameRound : (Action.execBlock n (roundBlock x body f p places)).Approximates
          (Action.round (n + 4) (n + 4) body c w p) m₁ := by
        have greater : (Action.execBlock n (roundBlock x body f p places)).Approximates
            (Action.round (n + 4) (n + 2) body c w p) m₁ := by
          intro ends
          rw [← execBlock_roundBlock loop₁ places]
          exact (approximating (Nat.le_add_right n 7)).execBlock _ m₁ ends
        exact greater.trans (round_approximates (Nat.le_refl _) (by omega) body)
      refine sameRound.bind fun flow m₂ ran => ?_
      cases flow with
      | returned v => exact .refl _ m₂
      | normal => exact inductionHypothesis (loop₁.execBlock ran)

/-- The rounds come to the same ends. -/
theorem comes_iff [Host] (loop : InLoop x f w c m) (ending : Ending Flow) :
    Comes (fun n => iterate n condition body c w p) m ending ↔
      Comes (fun n => execWhile n condition (roundBlock x body f p places)) m ending :=
  ⟨.of_approximates fun n => ⟨n + 7, loop.iterate_approximates condition body p places n⟩,
    .of_approximates fun n => ⟨n + 4, loop.execWhile_approximates condition body p places n⟩⟩

end InLoop

/-! ## The whole loop -/

namespace Action

variable {m m₁ : Machine} {i : Iterator} {f : String} {q : Position} {w : View} {c : Callable}
  {k : Nat} (condition : Expr) (body : Block) (p : Position) (places : LoopPlaces)

/-- Where a name stands has no part in what it means. -/
theorem name_ok {x : String} {r r' : Position} {v : Value} {m' : Machine}
    (given : name x r m = .ok v m') : name x r' m = .ok v m' := by
  rw [name_run] at given ⊢
  cases resolved : m.frame.resolve? x with
  | some u => rw [resolved] at given; exact given
  | none =>
    rw [resolved] at given
    dsimp only at given ⊢
    cases defined : m.functions.find? x with
    | some d => rw [defined] at given; exact given
    | none => rw [defined] at given; cases given

theorem assign_of_header [Host] {a : Assignment}
    (header : execAll k [.assign a] m = .ok .normal m₁) :
    ∃ j, ∀ n, assign (n + j) a m = .ok () m₁ := by
  match k with
  | 0 | 1 => cases header
  | j + 2 =>
    have assigned : assign j a m = .ok () m₁ := by
      simp only [execAll, exec, bind_run] at header
      cases ending : assign j a m with
      | error e m' => rw [ending] at header; cases header
      | ok u m' =>
        rw [ending] at header
        cases header
        rfl
    refine ⟨j, fun n => ?_⟩
    rw [← assigned]
    refine (approximating (Nat.le_add_left j n)).assign a m ?_
    rintro ⟨m', exhausts⟩
    rw [assigned] at exhausts
    cases exhausts

theorem loopView_of_header [Host] (header : execAll k i.header m = .ok .normal m₁)
    (iterator : m₁.frame.resolve? i.name = some w) :
    ∃ j, ∀ n, loopView (n + j + 2) i m = .ok w m₁ := by
  have resolved (r : Position) : resolve i.name r m₁ = .ok w m₁ := by
    rw [resolve, bind_run, resolve?_run, iterator]
    rfl
  cases i with
  | existing x r =>
    cases k with
    | zero => cases header
    | succ k =>
      cases header
      exact ⟨0, fun n => resolved r⟩
  | assign a =>
    obtain ⟨j, assigned⟩ := assign_of_header header
    refine ⟨j, fun n => ?_⟩
    have once := assigned (n + 1)
    rw [Nat.add_right_comm] at once
    simp only [loopView, bind_run, once]
    exact resolved a.position

theorem exec_forLoop [Host] (header : execAll k i.header m.pushScope = .ok .normal m₁)
    (iterator : m₁.frame.resolve? i.name = some w) (onIter : name f q m₁ = .ok (.callable c) m₁) :
    ∃ l j, ∀ n, exec (n + l) (.forLoop i condition body (.name f q) p) m =
      Ending.onMachine (iterate (n + j) condition body c w p m₁) Machine.popScope := by
  obtain ⟨j, viewed⟩ := loopView_of_header header iterator
  refine ⟨j + 4, j + 2, fun n => ?_⟩
  have callable : evalCallable (n + j + 2) (.name f q) m₁ = .ok c m₁ := by
    simp only [evalCallable, eval, bind_run, onIter]
    rfl
  change exec (n + j + 4) _ m = _
  rw [exec, inScope_run, execFor, bind_run, viewed]
  dsimp only
  rw [bind_run, callable]
  rfl

theorem execAll_whileLoop [Host] (n : Nat) (b : Block) :
    execAll (n + 3) [.whileLoop condition b places.loop] m = execWhile (n + 1) condition b m := by
  rw [execAll, bind_run, exec]
  cases execWhile (n + 1) condition b m with
  | error e m' => rfl
  | ok flow m' => cases flow <;> rfl

theorem execBlock_whileBlock [Host] (header : execAll k i.header m.pushScope = .ok .normal m₁) :
    ∃ l j, ∀ n, execBlock (n + l) (whileBlock i condition body f p places) m =
      Ending.onMachine (execWhile (n + j) condition (roundBlock i.name body f p places) m₁)
        Machine.popScope := by
  unfold whileBlock
  cases i with
  | existing x r =>
    cases k with
    | zero => cases header
    | succ k =>
      cases header
      refine ⟨4, 1, fun n => ?_⟩
      rw [execBlock, inScope_run]
      exact congrArg (Ending.onMachine · Machine.popScope) (execAll_whileLoop condition places n _)
  | assign a =>
    obtain ⟨j, assigned⟩ := assign_of_header header
    refine ⟨j + 5, j + 1, fun n => ?_⟩
    have once := assigned (n + 2)
    rw [Nat.add_right_comm] at once
    change execBlock (n + j + 5) _ m = _
    rw [execBlock, inScope_run]
    change Ending.onMachine (execAll (n + j + 4) (.assign a :: _) m.pushScope) _ = _
    rw [execAll, bind_run, exec, bind_run, once]
    exact congrArg (Ending.onMachine · Machine.popScope)
      (execAll_whileLoop condition places (n + j) _)

end Action

/-- In every state of a session a loop with an iterator whose header goes well, and whose last part
is the name of a callable then, does what the loop without an iterator does: it comes to the same
end, with the same result and in the same machine, or to none. -/
theorem for_loop_is_while_loop [Host] {known : View → Prop} {m m₁ : Machine} {i : Iterator}
    {f : String} {q : Position} {w : View} {c : Callable} {k : Nat} (reached : Reached known m)
    (header : Action.execAll k i.header m.pushScope = .ok .normal m₁)
    (iterator : m₁.frame.resolve? i.name = some w)
    (onIter : Action.name f q m₁ = .ok (.callable c) m₁)
    (condition : Expr) (body : Block) (p : Position) (places : LoopPlaces) (ending : Ending Flow) :
    Action.Comes (fun n => Action.exec n (.forLoop i condition body (.name f q) p)) m ending ↔
      Action.Comes (fun n => Action.execBlock n (whileBlock i condition body f p places)) m
        ending := by
  have presides := (reached.presides (g := .honest) rfl).pushScope
  have turned : Action.Leads (Grant.honest.Turns m.pushScope) _ _ _ :=
    (Grant.honest.discipline.lawful k).execAll i.header m.pushScope presides.toRules
  have loop : InLoop i.name f w c m₁ :=
    ⟨(turned.ok header).1.ruled, iterator, fun _ => Action.name_ok onIter⟩
  obtain ⟨l, j, forLoop⟩ := Action.exec_forLoop condition body p header iterator onIter
  obtain ⟨l', j', whileLoop⟩ := Action.execBlock_whileBlock condition body p places header
  rw [Action.comes_iff_of_onMachine (fun _ _ le => (Action.approximating le).exec _ m)
      (fun _ _ le => (Action.approximating le).iterate _ _ _ _ _ m₁) forLoop,
    Action.comes_iff_of_onMachine (fun _ _ le => (Action.approximating le).execBlock _ m)
      (fun _ _ le => (Action.approximating le).execWhile _ _ m₁) whileLoop]
  simp only [loop.comes_iff condition body p places]

/-- The loop `for 0 => mut int i, i < 2, increment` counts to two, and so does the block that is
made of it. -/
theorem counting_to_two_is_while_loop :
    ∃ known m₁ w c ending, Reached known declaredSession ∧
      Action.execAll 9 (Iterator.assign ⟨.literal (.int 0) .start, some (.base .int true), "i",
        .start⟩).header declaredSession.pushScope = .ok .normal m₁ ∧
      m₁.frame.resolve? "i" = some w ∧ Action.name "increment" .start m₁ = .ok (.callable c) m₁ ∧
      Action.Comes (fun n => Action.execBlock n (whileBlock
        (.assign ⟨.literal (.int 0) .start, some (.base .int true), "i", .start⟩)
        (.binary .less (.name "i" .start) (.literal (.int 2) .start) .start) [] "increment" .start
        ⟨.start, .start, .start, .start, .start, .start⟩)) declaredSession ending ∧
      Ending.result ending = .ok .normal ∧
      ((Ending.machine ending).store.get w.cell).value = .int 2 := by
  obtain ⟨known, session⟩ := session_declaredSession
  let i : Iterator := .assign ⟨.literal (.int 0) .start, some (.base .int true), "i", .start⟩
  let condition : Expr := .binary .less (.name "i" .start) (.literal (.int 2) .start) .start
  let ending := Action.exec 20 (.forLoop i condition [] (.name "increment" .start) .start)
    declaredSession
  have counted : Action.Comes
      (fun n => Action.exec n (.forLoop i condition [] (.name "increment" .start) .start))
      declaredSession ending := ⟨20, rfl, by rintro ⟨m', exhausted⟩; cases exhausted⟩
  refine ⟨known, _, ⟨1, "i", true⟩, _, ending, .between session, rfl, rfl, rfl, ?_, rfl, rfl⟩
  exact (for_loop_is_while_loop (.between session) (k := 9) rfl rfl rfl condition [] .start _
    _).mp counted

end Rightflow
