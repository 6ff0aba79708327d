import Rightflow.Proofs.Bounds
import Rightflow.Proofs.GivenStamps

/-!
# Partial application

To bind arguments to a callable and call what results is to call the callable with all of them
(`partial_application_is_application`): `(b) -> (a) ->> c` comes to the same endings as
`(a, b) -> c`, with the same result or fault, the same variables and the same output.  The arguments
are literals and names, which are evaluated in either order, and a name of a variable is passed as
the same view in either form.

One callable more is made in the first form, so that those made behind it bear stamps that are later
by one (`Machine.Later`).  The stamps of both forms correspond one to one, as new ones are none that
are borne already.  So on a host that respects stamps, on which no evaluation depends on them, that
is all the difference there is.
-/

namespace Rightflow

variable {α : Type} {m : Machine}

/-! ## Plain arguments -/

namespace Machine

/-- A literal, or a name that means a variable or a function. -/
inductive Plain (m : Machine) : Expr → Prop where
  | literal (value : Literal) (p : Position) : Plain m (.literal value p)
  | name {x : String} (known : m.frame.resolve? x ≠ none ∨ m.functions.find? x ≠ none)
      (p : Position) : Plain m (.name x p)

/-- What a plain expression is passed as. -/
def argument (m : Machine) : Expr → Arg
  | .literal value _ => .value (.ofLiteral value)
  | .name x _ =>
    match m.frame.resolve? x, m.functions.find? x with
    | some w, _ => .view w
    | none, some c => .value (.callable c)
    | none, none => .value .none
  | _ => .value .none

/-- The callables among plain arguments are those of the function table. -/
theorem Plain.bears {e : Expr} (plain : m.Plain e) {stamp : Nat}
    (member : stamp ∈ (m.argument e).stamps) :
    ∃ x c, m.functions.find? x = some c ∧ stamp ∈ c.stamps := by
  cases plain with
  | literal value p =>
    cases value <;> simp [argument, Value.ofLiteral, Arg.stamps, Value.stamps] at member
  | @name x known p =>
    cases means : m.frame.resolve? x with
    | some w => simp [argument, means, Arg.stamps] at member
    | none =>
      cases found : m.functions.find? x with
      | some c =>
        refine ⟨x, c, found, ?_⟩
        simpa [argument, means, found, Arg.stamps, Value.stamps] using member
      | none => exact absurd found (known.resolve_left (not_not.2 means))

end Machine

namespace Action

variable [Host]

theorem evalArg_plain {e : Expr} (plain : m.Plain e) (n : Nat) :
    evalArg (n + 2) e m = .ok (m.argument e) m := by
  cases plain with
  | literal value p => rfl
  | @name x known p =>
    simp only [evalArg, eval, bind_run, resolve?_run, Machine.argument]
    cases means : m.frame.resolve? x with
    | some w => rfl
    | none =>
      dsimp only
      rw [bind_run, name_run, means]
      cases found : m.functions.find? x with
      | some c => rfl
      | none => exact absurd found (known.resolve_left (not_not.2 means))

/-- Plain arguments are evaluated without an effect. -/
theorem evalArgs_plain {es : List Expr} (plain : ∀ e ∈ es, m.Plain e) {n : Nat}
    (enough : es.length + 3 ≤ n) : evalArgs n es m = .ok (es.map m.argument) m := by
  induction es generalizing n with
  | nil =>
    obtain ⟨n, rfl⟩ := Nat.exists_eq_add_of_le' enough
    rfl
  | cons e es inductionHypothesis =>
    obtain ⟨first, further⟩ := List.forall_mem_cons.1 plain
    obtain ⟨n, rfl⟩ : ∃ k, n = k + 3 := Nat.exists_eq_add_of_le' (Nat.le_of_add_left_le enough)
    have rest := inductionHypothesis further (n := n + 2) (by simpa using enough)
    simp only [evalArgs, bind_run, evalArg_plain first, rest]
    rfl

/-! ## Calls behind the evaluation of a callee -/

/-- Evaluates a callee and calls it with arguments. -/
def applied (n k : Nat) (callee : Expr) (args : List Arg) (p : Position) : Action Value := do
  let c ← evalCallable n callee
  call k c args p

/-- Evaluates a callee, gives out a stamp, and calls the callee with arguments. -/
def appliedLater (n k : Nat) (callee : Expr) (args : List Arg) (p : Position) : Action Value := do
  let c ← evalCallable n callee
  let _ ← stamp
  call k c args p

section

variable {c : Expr} {args : List Arg} {p : Position} {n n' k k' : Nat} {ending : Ending Value}

theorem applied_approximates (le : n ≤ n') (le' : k ≤ k') :
    (applied n k c args p).Approximates (applied n' k' c args p) m :=
  ((approximating le).evalCallable c m).bind fun d m₁ _ => (approximating le').call d args p m₁

theorem appliedLater_approximates (le : n ≤ n') (le' : k ≤ k') :
    (appliedLater n k c args p).Approximates (appliedLater n' k' c args p) m :=
  ((approximating le).evalCallable c m).bind fun d m₁ _ =>
    (Approximates.refl stamp m₁).bind fun _ m₂ _ => (approximating le').call d args p m₂

/-- The call may as well go on under a bound that is greater by one. -/
theorem comes_applied_iff :
    Comes (fun n => applied n n c args p) m ending ↔
      Comes (fun n => applied n (n + 1) c args p) m ending := by
  constructor
  · exact .of_approximates fun n => ⟨n, applied_approximates (Nat.le_refl n) (Nat.le_succ n)⟩
  · exact .of_approximates fun n => ⟨n + 1, applied_approximates (Nat.le_succ n) (Nat.le_refl _)⟩

end

omit [Host] in
/-- Actions that run alike under great bounds come to the same endings. -/
theorem comes_iff_of_run {action inner : Nat → Action α} {k j : Nat} {ending : Ending α}
    (monotone : ∀ n k, n ≤ k → (action n).Approximates (action k) m)
    (innerMonotone : ∀ n k, n ≤ k → (inner n).Approximates (inner k) m)
    (run : ∀ n, action (n + k) m = inner (n + j) m) :
    Comes action m ending ↔ Comes inner m ending := by
  constructor
  · refine .of_approximates fun n => ⟨n + j, fun ends => ?_⟩
    exact (run n).symm.trans (monotone n (n + k) (Nat.le_add_right n k) ends)
  · refine .of_approximates fun n => ⟨n + k, fun ends => ?_⟩
    exact (run n).trans (innerMonotone n (n + j) (Nat.le_add_right n j) ends)

theorem eval_monotone (e : Expr) (n k : Nat) (le : n ≤ k) :
    (eval n e).Approximates (eval k e) m :=
  (approximating le).eval e m

section

variable {c : Expr} {a b es : List Expr} {p q : Position} {ending : Ending Value}

theorem comes_call_plain (plain : ∀ e ∈ es, m.Plain e) :
    Comes (fun n => eval n (.call c es p)) m ending ↔
      Comes (fun n => applied n n c (es.map m.argument) p) m ending := by
  refine comes_iff_of_run (eval_monotone _) (fun _ _ le => applied_approximates le le)
    (k := es.length + 3 + 1) (j := es.length + 3) fun n => ?_
  have args := evalArgs_plain plain (n := n + (es.length + 3)) (Nat.le_add_left _ n)
  change eval (n + (es.length + 3) + 1) _ m = _
  rw [eval, bind_run, args]
  rfl

/-- To call what arguments are bound to is to call the callee with all arguments, when it has been
evaluated and a stamp has been given out. -/
theorem eval_call_bind_run {n : Nat} {as bs : List Arg} (inner : evalArgs n a m = .ok as m)
    (outer : evalArgs (n + 2) b m = .ok bs m) :
    eval (n + 3) (.call (.bind c a q) b p) m = appliedLater n (n + 1) c (as ++ bs) p m := by
  have bound : evalCallable (n + 2) (.bind c a q) m =
      match evalCallable n c m with
      | .ok d m₁ => .ok (.bound d as m₁.store.made) { m₁ with store := m₁.store.stamp.2 }
      | .error e m₁ => .error e m₁ := by
    simp only [evalCallable, eval, bind_run, inner]
    cases evalCallable n c m <;> rfl
  rw [eval, bind_run, outer, appliedLater]
  dsimp only
  rw [bind_run, bound, bind_run]
  cases evalCallable n c m <;> rfl

theorem comes_call_bind_plain (plain : ∀ e ∈ a ++ b, m.Plain e) :
    Comes (fun n => eval n (.call (.bind c a q) b p)) m ending ↔
      Comes (fun n => appliedLater n (n + 1) c ((a ++ b).map m.argument) p) m ending := by
  obtain ⟨onInner, onOuter⟩ := List.forall_mem_append.1 plain
  -- The callee is evaluated two layers further down, so that its bound is less by that much.
  refine comes_iff_of_run (eval_monotone _)
    (fun _ _ le => appliedLater_approximates le (Nat.succ_le_succ le))
    (k := (a ++ b).length + 3 + 3) (j := (a ++ b).length + 3) fun n => ?_
  change eval (n + ((a ++ b).length + 3) + 3) _ m = _
  rw [List.map_append, List.length_append]
  apply eval_call_bind_run
  · exact evalArgs_plain onInner (by omega)
  · exact evalArgs_plain onOuter (by omega)

/-- The callable that a function is, where no variable hides it. -/
theorem evalCallable_function {x : String} {d : Callable} (free : m.frame.resolve? x = none)
    (defined : m.functions.find? x = some d) (n : Nat) (p : Position) :
    evalCallable (n + 2) (.name x p) m = .ok d m := by
  simp only [evalCallable, eval, bind_run, name_run, free, defined]
  rfl

/-- To call a decorated function is to call the function with its decorator as the first argument,
when a stamp has been given out. -/
theorem eval_call_decorated_run {f g g' : Expr} {d e : Callable} {n : Nat} {bs : List Arg}
    (decorator : evalCallable n f m = .ok d m) (target : evalCallable n g m = .ok e m)
    (target' : evalCallable n g' m = .ok e m) (outer : evalArgs (n + 2) b m = .ok bs m) :
    eval (n + 3) (.call (.binary .decorate f g q) b p) m =
      appliedLater n (n + 1) g' (.value (.callable d) :: bs) p m := by
  have bound : evalCallable (n + 2) (.binary .decorate f g q) m =
      .ok (.bound e [.value (.callable d)] m.store.made) { m with store := m.store.stamp.2 } := by
    simp only [evalCallable, eval, bind_run, decorator, target]
    rfl
  rw [eval, bind_run, outer, appliedLater]
  dsimp only
  rw [bind_run, bound, bind_run, target']
  rfl

theorem comes_call_decorated_plain {f g : String} {d e : Callable} {p₁ p₂ p₃ p₄ : Position}
    (freeDecorator : m.frame.resolve? f = none) (decorator : m.functions.find? f = some d)
    (freeTarget : m.frame.resolve? g = none) (target : m.functions.find? g = some e)
    (plain : ∀ e ∈ b, m.Plain e) :
    Comes (fun n => eval n (.call (.binary .decorate (.name f p₁) (.name g p₂) q) b p)) m ending ↔
      Comes (fun n => appliedLater n (n + 1) (.name g p₄) ((.name f p₃ :: b).map m.argument) p) m
        ending := by
  refine comes_iff_of_run (eval_monotone _)
    (fun _ _ le => appliedLater_approximates le (Nat.succ_le_succ le))
    (k := b.length + 1 + 2 + 3) (j := b.length + 1 + 2) fun n => ?_
  change eval (n + (b.length + 1) + 2 + 3) _ m = _
  have first : m.argument (.name f p₃) = .value (.callable d) := by
    simp only [Machine.argument, freeDecorator, decorator]
  rw [List.map_cons, first]
  apply eval_call_decorated_run
  · exact evalCallable_function freeDecorator decorator _ p₁
  · exact evalCallable_function freeTarget target _ p₂
  · exact evalCallable_function freeTarget target _ p₄
  · exact evalArgs_plain plain (by omega)

end

end Action

/-! ## Stamps that are later by one -/

namespace Machine

/-- How stamps compare when one more has been given out before a callable is called: those that the
machine and the callable bear are the same, and those that are given out from here on are later by
one. -/
def Later (m : Machine) (c : Callable) (stamp stamp' : Nat) : Prop :=
  (stamp' = stamp ∧ (m.Bears stamp ∨ stamp ∈ c.stamps)) ∨
    (m.store.made ≤ stamp ∧ stamp' = stamp + 1)

theorem restamped_later (m : Machine) (c : Callable) :
    m.Restamped (m.Later c) { m with store := m.store.stamp.2 } where
  functions := rfl
  shared x d found := Callable.restamped_self fun _ member =>
    .inl ⟨rfl, .inl (.inl ⟨x, d, found, member⟩)⟩
  store := {
    size := rfl
    name := fun _ => rfl
    type := fun _ => rfl
    value := fun cell => Value.restamped_self fun _ member =>
      .inl ⟨rfl, .inl (.inr ⟨cell, member⟩)⟩
    made := fun k => .inr ⟨Nat.le_add_right _ k, by simp only [Store.stamp]; omega⟩ }
  frame := rfl
  callers := rfl
  sink := rfl

/-- If all stamps that are borne have been given out, the stamps correspond one to one, so that two
callables are one object in both runs or in neither (`Value.Restamped.same`). -/
theorem later_oneToOne (given : m.StampsGiven) {c : Callable} (held : m.store.HasGiven c.stamps) :
    OneToOne (m.Later c) := by
  have old (stamp : Nat) (borne : m.Bears stamp ∨ stamp ∈ c.stamps) : stamp < m.store.made :=
    borne.elim given.of_bears (held stamp)
  intro s s' t t' first second
  obtain ⟨rfl, borne⟩ | ⟨made, rfl⟩ := first <;> obtain ⟨rfl, borne'⟩ | ⟨made', rfl⟩ := second
  · exact Iff.rfl
  · have before := old _ borne
    omega
  · have before := old _ borne'
    omega
  · omega

end Machine

/-- Two endings that are the same, or that differ in the stamps of the callables made behind the
evaluation of a callee, where these correspond one to one. -/
def Ending.AlikeBehind [Host] (callee : Expr) (m : Machine) (ending ending' : Ending Value) :
    Prop :=
  ending' = ending ∨ ∃ c m₁, Action.Comes (fun n => Action.eval n callee) m (.ok (.callable c) m₁) ∧
    OneToOne (m₁.Later c) ∧ ending.Restamped (m₁.Later c) (Value.Restamped (m₁.Later c)) ending'

namespace Action

variable [Host] {c : Expr} {es : List Expr} {p : Position}

theorem exists_eval_of_evalCallable {n : Nat} {d : Callable} {m₁ : Machine}
    (evaluated : evalCallable n c m = .ok d m₁) :
    ∃ k, eval k c m = .ok (.callable d) m₁ := by
  cases n with
  | zero => cases evaluated
  | succ k =>
    rw [evalCallable, bind_run] at evaluated
    cases value : eval k c m with
    | error e m₂ => rw [value] at evaluated; cases evaluated
    | ok v m₂ =>
      rw [value] at evaluated
      cases v with
      | callable d' => cases evaluated; exact ⟨k, value⟩
      | none | string _ | int _ | flt _ | bool _ => cases evaluated

/-- What comes behind the evaluation of a callee does not depend on a stamp that is given out
first. -/
theorem applied_alike (respects : Host.RespectsStamps) (stamps : m.StampsGiven)
    (plain : ∀ e ∈ es, m.Plain e) (n k : Nat) :
    Ending.AlikeBehind c m (applied n k c (es.map m.argument) p m)
      (appliedLater n k c (es.map m.argument) p m) := by
  rw [applied, appliedLater, bind_run, bind_run]
  cases evaluated : evalCallable n c m with
  | error e m₁ => exact .inl rfl
  | ok d m₁ =>
    have kept : Leads (m.Keeps .closed) (evalCallable n c) m _ :=
      (surroundings.lawful n).evalCallable c m trivial
    have functions := (kept.ok evaluated).1.functions
    have gives : Leads m.Gives (evalCallable n c) m _ :=
      ((givenStamps respects).lawful n).evalCallable c m stamps
    obtain ⟨later, held⟩ := gives.ok evaluated
    have oneToOne := Machine.later_oneToOne later.given held
    -- The callables among the arguments are of the function table, which the callee has left alone.
    have given : List.Forall₂ (Arg.Restamped (m₁.Later d)) (es.map m.argument)
        (es.map m.argument) := by
      rw [List.forall₂_same, List.forall_mem_map]
      refine fun e member => Arg.restamped_self fun stamp borne => ?_
      obtain ⟨x, f, found, member⟩ := (plain e member).bears borne
      exact .inl ⟨rfl, .inl (.inl ⟨x, f, functions ▸ found, member⟩)⟩
    obtain ⟨j, value⟩ := exists_eval_of_evalCallable evaluated
    have ends : ¬ (eval j c).Exhausts m := by
      rintro ⟨m₂, exhausted⟩
      rw [value] at exhausted
      cases exhausted
    have parallels := (evaluation_parallels k (respects.restamps _ oneToOne)).call
      (Callable.restamped_self fun _ member => .inl ⟨rfl, .inr member⟩) given p _ _
      (m₁.restamped_later d)
    exact .inr ⟨d, m₁, ⟨j, value, ends⟩, oneToOne, parallels⟩

/-- Alike endings are both those of an evaluation that reaches its bound, or neither is. -/
theorem exhausts_iff_of_alikeBehind {action action' : Action Value}
    (alike : Ending.AlikeBehind c m (action m) (action' m)) :
    action'.Exhausts m ↔ action.Exhausts m := by
  unfold Exhausts
  obtain same | ⟨d, m₁, -, -, restamped⟩ := alike
  · rw [same]
  · generalize action m = ending, action' m = ending' at restamped ⊢
    cases restamped with
    | ok => exact ⟨nofun, nofun⟩
    | error e => simp

/-- Two actions that come to endings which belong together, each to one for every one of the
other. -/
def SameEndings (P : Ending α → Ending α → Prop) (action action' : Nat → Action α) (m : Machine) :
    Prop :=
  (∀ ending, Comes action m ending → ∃ ending', Comes action' m ending' ∧ P ending ending') ∧
    ∀ ending', Comes action' m ending' → ∃ ending, Comes action m ending ∧ P ending ending'

/-- Actions that come to the endings of a call, and of the call with a stamp given out before it. -/
theorem sameEndings_of_applied (respects : Host.RespectsStamps) (stamps : m.StampsGiven)
    {action action' : Nat → Action Value} (plain : ∀ e ∈ es, m.Plain e)
    (direct : ∀ ending, Comes action m ending ↔
      Comes (fun n => applied n n c (es.map m.argument) p) m ending)
    (later : ∀ ending, Comes action' m ending ↔
      Comes (fun n => appliedLater n (n + 1) c (es.map m.argument) p) m ending) :
    SameEndings (Ending.AlikeBehind c m) action action' m := by
  simp only [SameEndings, direct, later, comes_applied_iff]
  constructor
  · rintro _ ⟨n, rfl, ends⟩
    have alike := applied_alike (c := c) (p := p) respects stamps plain n (n + 1)
    exact ⟨_, ⟨n, rfl, mt (exhausts_iff_of_alikeBehind alike).1 ends⟩, alike⟩
  · rintro _ ⟨n, rfl, ends⟩
    have alike := applied_alike (c := c) (p := p) respects stamps plain n (n + 1)
    exact ⟨_, ⟨n, rfl, mt (exhausts_iff_of_alikeBehind alike).2 ends⟩, alike⟩

end Action

open Rightflow.Action in
/-- In every state, `(b) -> (a) ->> c` comes to the endings that `(a, b) -> c` comes to, where `a`
and `b` are literals and names that mean something: to the same value, or the same fault at the same
position, with the same variables, frames and output, but for the stamps of callables that are made
behind the evaluation of `c`, which correspond one to one.  Likewise `(b) -> f @ g` comes to the
endings of `(f, b) -> g`, where `f` and `g` name functions that no variables hide.  What `c` is does
not matter; only a function of the host has to be one that respects stamps. -/
theorem partial_application_is_application [Host] (respects : Host.RespectsStamps) {m : Machine}
    (stamps : m.StampsGiven) (b : List Expr) (p q : Position) (plain : ∀ e ∈ b, m.Plain e) :
    (∀ c a, (∀ e ∈ a, m.Plain e) →
      SameEndings (Ending.AlikeBehind c m) (fun n => eval n (.call c (a ++ b) p))
        (fun n => eval n (.call (.bind c a q) b p)) m) ∧
    ∀ f g d e p₁ p₂ p₃ p₄, m.frame.resolve? f = none → m.functions.find? f = some d →
      m.frame.resolve? g = none → m.functions.find? g = some e →
        SameEndings (Ending.AlikeBehind (.name g p₂) m)
          (fun n => eval n (.call (.name g p₂) (.name f p₁ :: b) p))
          (fun n => eval n (.call (.binary .decorate (.name f p₃) (.name g p₄) q) b p)) m := by
  constructor
  · intro c a onInner
    have all := List.forall_mem_append.2 ⟨onInner, plain⟩
    exact sameEndings_of_applied respects stamps all (fun _ => comes_call_plain all)
      fun _ => comes_call_bind_plain all
  · intro f g d e p₁ p₂ p₃ p₄ freeDecorator decorator freeTarget target
    have named : m.Plain (.name f p₁) := .name (.inr (by simp [decorator])) p₁
    have all := List.forall_mem_cons.2 ⟨named, plain⟩
    exact sameEndings_of_applied respects stamps all (fun _ => comes_call_plain all)
      fun _ => comes_call_decorated_plain freeDecorator decorator freeTarget target plain

/-! ## A host that compares -/

/-- Whether two arguments are the same. -/
def Reply.comparison (s : Store) (k : Sink) : List Arg → Reply
  | [a, b] => ⟨.ok (.bool ((s.argValue a).same (s.argValue b))), s, k⟩
  | _ => ⟨.ok .none, s, k⟩

/-- A host with a function that compares its arguments. -/
@[reducible] def Host.comparing : Host where
  toMemory := .standard
  run _ args _ s k := .comparison s k args
  grows _ _ _ s _ := by unfold Reply.comparison; split <;> exact .refl s
  writes _ _ _ _ k := by unfold Reply.comparison; split <;> exact .refl k

/-- Callables that are told apart by their stamps are told apart whichever stamps they bear. -/
theorem Reply.comparison_restamped {r : Nat → Nat → Prop} (oneToOne : OneToOne r) {s s' : Store}
    (stores : s.Restamped r s') (k : Sink) {args args' : List Arg}
    (given : List.Forall₂ (Arg.Restamped r) args args') :
    (comparison s k args).Restamped r (comparison s' k args') := by
  have nothing : Reply.Restamped r ⟨.ok .none, s, k⟩ ⟨.ok .none, s', k⟩ :=
    ⟨.ok (.constant nofun), stores, rfl⟩
  cases given with
  | nil => exact nothing
  | cons first rest =>
    cases rest with
    | nil => exact nothing
    | cons second rest =>
      cases rest with
      | cons _ _ => exact nothing
      | nil =>
        rw [comparison, comparison,
          (stores.argValue first).same oneToOne (stores.argValue second)]
        exact ⟨.ok (.constant nofun), stores, rfl⟩

theorem Host.comparing_respectsStamps : @Host.RespectsStamps .comparing := by
  let : Host := .comparing
  constructor
  · intro r oneToOne code args args' p s s' k given stores
    exact Reply.comparison_restamped oneToOne stores k given
  · intro code args p s k _ stores
    change (Reply.comparison s k args).StampsGiven
    unfold Reply.comparison
    split <;> exact ⟨stores, fun v given => by cases given; exact nofun⟩

/-- The function that compares callables which take a string. -/
def Builtin.comparison : Builtin :=
  let taken : Ty := .func (.base .void false) [.base .string false]
  ⟨"same", ⟨.base .bool false, [taken, taken]⟩, .foreign 0⟩

/-- A session with `stdout` and the function. -/
def comparingSession : Machine := .ofBuiltins [Builtin.stdout, Builtin.comparison]

/-- `(stdout) -> (stdout) ->> same` and `(stdout, stdout) -> same` are true. -/
theorem stdout_is_itself_either_way :
    letI : Host := .comparing
    Host.RespectsStamps ∧ comparingSession.StampsGiven ∧
    (∀ e ∈ [Expr.name "stdout" .start], comparingSession.Plain e) ∧
    Action.SameEndings (Ending.AlikeBehind (.name "same" .start) comparingSession)
      (fun n => Action.eval n (.call (.name "same" .start)
        [.name "stdout" .start, .name "stdout" .start] .start))
      (fun n => Action.eval n (.call (.bind (.name "same" .start) [.name "stdout" .start] .start)
        [.name "stdout" .start] .start)) comparingSession ∧
    Ending.result (Action.eval 20 (.call (.bind (.name "same" .start) [.name "stdout" .start]
      .start) [.name "stdout" .start] .start) comparingSession) = .ok (.bool true) := by
  let : Host := .comparing
  have respects : Host.RespectsStamps := Host.comparing_respectsStamps
  have stamps : comparingSession.StampsGiven := Machine.stampsGiven_ofBuiltins _ _
  have plain : ∀ e ∈ [Expr.name "stdout" .start], comparingSession.Plain e := by
    refine List.forall_mem_singleton.2 (.name (.inr ?_) _)
    simp [comparingSession, Machine.ofBuiltins, Machine.addBuiltin, Builtin.comparison,
      Builtin.stdout]
  have alike := partial_application_is_application respects stamps [.name "stdout" .start] .start
    .start plain
  exact ⟨respects, stamps, plain, alike.1 (.name "same" .start) [.name "stdout" .start] plain,
    by rfl⟩

end Rightflow
