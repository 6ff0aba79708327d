import Rightflow.Proofs.Endings

/-!
# What operations do not look at

An action commutes with a change of the machine if it does the same before the change and behind it.
Binding parameters and calling native functions looks at the store and at the sink and at nothing
else of the machine, so that both commute with every change of the rest (`Machine.Unseen`).
-/

namespace Rightflow

/-- A change of a machine that has nothing to do with its store and its sink. -/
structure Machine.Unseen (change : Machine → Machine) : Prop where
  store : ∀ m, (change m).store = m.store
  sink : ∀ m, (change m).sink = m.sink
  withStore : ∀ m s, change { m with store := s } = { change m with store := s }
  withSink : ∀ m s, change { m with sink := s } = { change m with sink := s }

namespace Action

variable {α β : Type} {change : Machine → Machine} {m : Machine}

/-- Whether an action does the same, begun in a machine, when the machine is changed. -/
def CommutesWith (change : Machine → Machine) (action : Action α) (m : Machine) : Prop :=
  action (change m) = Ending.onMachine (action m) change

theorem CommutesWith.bind {action : Action α} {next : α → Action β}
    (first : action.CommutesWith change m)
    (later : ∀ x m', action m = .ok x m' → (next x).CommutesWith change m') :
    (action >>= next).CommutesWith change m := by
  unfold CommutesWith at first ⊢
  rw [bind_run, bind_run, first]
  cases ending : action m with
  | ok x m' => exact later x m' ending
  | error e m' => rfl

theorem attempt_commutesWith (p : Position) (outcome : Except Cause α) :
    (attempt p outcome).CommutesWith change m := by
  cases outcome <;> rfl

section

variable (unseen : Machine.Unseen change)

include unseen

theorem bindParam_commutesWith (x : Param) (a : Arg) (p : Position) :
    (bindParam x a p).CommutesWith change m := by
  unfold CommutesWith
  rw [bindParam_run, bindParam_run, unseen.store]
  cases m.store.bindArg x a with
  | error cause => rfl
  | ok b =>
    cases b with
    | view w => rfl
    | value v =>
      dsimp only
      rw [create_run, create_run, unseen.store, ← unseen.withStore]
      rfl

theorem bindParams_commutesWith (p : Position) (params : List Param) (args : List Arg) :
    (bindParams p params args).CommutesWith change m := by
  induction params generalizing args m with
  | nil => rfl
  | cons x xs inductionHypothesis =>
    cases args with
    | nil => rfl
    | cons a as =>
      exact (bindParam_commutesWith unseen x a p).bind fun w m₁ _ =>
        (inductionHypothesis as).bind fun ws m₂ _ => rfl

theorem writeValue_commutesWith (v : Value) (p : Position) :
    (writeValue v p).CommutesWith change m := by
  unfold CommutesWith
  rw [writeValue_run, writeValue_run, unseen.sink]
  dsimp only
  rw [← unseen.withSink]
  split <;> rfl

theorem incrementArg_commutesWith (a : Arg) (p : Position) :
    (incrementArg a p).CommutesWith change m := by
  cases a with
  | value v => rfl
  | view w =>
    unfold CommutesWith
    rw [incrementArg_run, incrementArg_run, unseen.store]
    cases (m.store.get w.cell).value with
    | int n =>
      dsimp only
      cases checked (n.toInt + 1) with
      | error cause => rfl
      | ok v => exact congrArg _ (unseen.withStore m _).symm
    | none | string _ | flt _ | bool _ | callable _ => rfl

theorem foreign_commutesWith [Host] (code : Nat) (args : List Arg) (p : Position) :
    (foreign code args p).CommutesWith change m := by
  unfold CommutesWith
  rw [foreign_run, foreign_run, unseen.store, unseen.sink]
  -- The host is given the same store and sink, and what it makes of them takes their place before
  -- the change as well as behind it.
  generalize Host.run code args p m.store m.sink = reply
  have moves := unseen.withSink { m with store := reply.store } reply.sink
  rw [unseen.withStore] at moves
  cases outcome : reply.outcome <;>
    simp only [Ending.ofReply, outcome, Ending.onMachine, moves]

theorem native_commutesWith [Host] (action : Native) (args : List Arg) (p : Position) :
    (native action args p).CommutesWith change m := by
  cases action with
  | foreign code => exact foreign_commutesWith unseen code args p
  | increment =>
    cases args with
    | nil => rfl
    | cons a rest => exact (incrementArg_commutesWith unseen a p).bind fun _ _ _ => rfl
  | write =>
    cases args with
    | nil => rfl
    | cons a rest =>
      change (writeValue ((change m).store.argValue a) p >>= _) (change m) = _
      rw [unseen.store]
      exact (writeValue_commutesWith unseen (m.store.argValue a) p).bind fun _ _ _ => rfl

theorem callBuiltin_commutesWith [Host] (b : Builtin) (args : List Arg) (p : Position) :
    (callBuiltin b args p).CommutesWith change m := by
  refine (attempt_commutesWith p _).bind fun _ m₁ _ => ?_
  change (attempt p ((change m₁).store.bindArgs b.params args) >>= _) (change m₁) = _
  rw [unseen.store]
  refine (attempt_commutesWith p (m₁.store.bindArgs b.params args)).bind fun bound m₂ _ => ?_
  exact native_commutesWith unseen b.native bound p

end

end Action

end Rightflow
