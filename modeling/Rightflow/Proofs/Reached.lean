import Rightflow.Proofs.Activities
import Rightflow.Session

/-!
# The states that a session reaches

A session begins with the standard native functions and takes requests from outside, one after the
other, whether they fail or not.  Outside there are only the views that earlier requests have given,
and what can be made of them.  `Reached` are the states that a session passes through: those between
two requests, and those in which an activity begins or ends that a request visits.

A grant that has been made before there were variables presides over all of them
(`Reached.presides`).
-/

namespace Rightflow

/-! ## Requests -/

inductive Request where
  | load (program : Program)
  | run (program : Program)
  | eval (e : Expr)
  | statement (s : Stmt)
  | block (body : Block)
  | declare (x : String) (t : Ty) (v : Value) (p : Position)
  | reassign (x : String) (v : Value) (p : Position)
  | lookup (x : String)
  | call (c : Callable) (args : List Arg) (p : Position)
  | takeOutput

namespace Request

/-- What a request brings along. -/
def given : Request → List Arg
  | .declare _ _ v _ | .reassign _ v _ => [.value v]
  | .call c args _ => .value (.callable c) :: args
  | _ => []

/-- What a request does, ending with what it gives. -/
def action [Host] (n : Nat) : Request → Action (List Arg)
  | .load program => do
    Action.load program
    return []
  | .run program => do return [.value (.int (← Action.run n program))]
  | .eval e => do return [.value (← Action.eval n e)]
  | .statement s => do return (← Action.exec n s).given
  | .block body => do return (← Action.execBlock n body).given
  | .declare x t v p => do return [.view (← Action.declare x t v p)]
  | .reassign x v p => do
    Action.reassign x v p
    return []
  | .lookup x => do return ((← Action.resolve? x).map Arg.view).toList
  | .call c args p => do return [.value (← Action.call n c args p)]
  | .takeOutput => do
    let _ ← Action.takeOutput
    return []

/-- The activity of which a request consists, if there is one. -/
def activities (r : Request) (m : Machine) : List (Activity × Machine) :=
  match r with
  | .run program =>
    Activity.after (do Action.load program; Action.mainFunction) m fun f m =>
      [(.call (.function f) [] f.position, m)]
  | .eval e => [(.eval e, m)]
  | .statement s => [(.statement s, m)]
  | .block body => [(.block body, m)]
  | .call c args p => [(.call c args p, m)]
  | _ => []

end Request

/-! ## Sessions -/

/-- A view that is among what an action has given. -/
def Ending.Gives (ending : Ending (List Arg)) (w : View) : Prop :=
  match ending with
  | .ok args _ => ∃ a ∈ args, .view w ∈ a.leaves
  | .error _ _ => False

/-- The machines of sessions between two requests, with the views that are known outside. -/
inductive Session [Host] : (View → Prop) → Machine → Prop
  | begin (sink : Sink) : Session (fun _ => False) (.ofBuiltins Builtin.standard sink)
  | request {known : View → Prop} {m : Machine} (n : Nat) (r : Request)
      (before : Session known m) (possible : ∀ a ∈ r.given, a.Known known) :
      Session (fun w => known w ∨ Ending.Gives (r.action n m) w) (Ending.machine (r.action n m))

/-- An activity that is visited during a request, with the bound and the machine in which it
begins. -/
inductive Entered [Host] (known : View → Prop) : Nat → Activity → Machine → Prop
  | during {m₀ m₁ m : Machine} {n k : Nat} {r : Request} {t₁ t : Activity}
      (session : Session known m₀) (possible : ∀ a ∈ r.given, a.Known known)
      (begun : (t₁, m₁) ∈ r.activities m₀) (visited : Activity.Visits n t₁ m₁ k t m) :
      Entered known k t m

/-- The states of sessions, with the views that are in hand at the time. -/
inductive Reached [Host] : (View → Prop) → Machine → Prop
  | between {known : View → Prop} {m : Machine} (session : Session known m) : Reached known m
  | entering {known : View → Prop} {n : Nat} {t : Activity} {m : Machine}
      (entered : Entered known n t m) :
      Reached (fun w => known w ∨ ∃ a ∈ t.given, .view w ∈ a.leaves) m
  | leaving {known : View → Prop} {n : Nat} {t : Activity} {m : Machine}
      (entered : Entered known n t m) :
      Reached (fun w => known w ∨ Ending.Gives (t.action n m) w) (Ending.machine (t.action n m))

/-! ## The beginning -/

theorem FunctionTable.IsGlobal.insert {t : FunctionTable} (isGlobal : t.IsGlobal) {x : String}
    {c : Callable}
    (added : (∃ f, c = .function f) ∨ ∃ b stamp, c = .builtin b stamp ∧ b ∈ Builtin.standard) :
    (t.insert x c).IsGlobal := by
  intro y d found
  rw [FunctionTable.find?_insert] at found
  by_cases same : y = x
  · rw [if_pos same] at found
    cases found
    exact added
  · rw [if_neg same] at found
    exact isGlobal y d found

theorem FunctionTable.isGlobal_empty : FunctionTable.IsGlobal {} := nofun

namespace Action

variable {m : Machine}

theorem define_run (f : Function) :
    define f m =
      match m.functions.find? f.name with
      | some (.builtin ..) =>
        .error (.fault (.located f.position (.builtinRedefined f.name))) m
      | some _ => .error (.fault (.located f.position (.alreadyDefined f.name))) m
      | none => .ok () { m with functions := m.functions.insert f.name (.function f) } := by
  change (match m.functions.find? f.name with
    | some (.builtin ..) => fail f.position (.builtinRedefined f.name)
    | some _ => fail f.position (.alreadyDefined f.name)
    | none => modify fun m => { m with functions := m.functions.insert f.name (.function f) } :
      Action Unit) m = _
  cases m.functions.find? f.name with
  | none => rfl
  | some c => cases c <;> rfl

theorem mainFunction_run :
    mainFunction m =
      match m.functions.find? "main" with
      | some (.function f) => .ok f m
      | _ => .error (.fault .missingMain) m := by
  change (match m.functions.find? "main" with
    | some (.function f) => pure f
    | _ => throw (.fault .missingMain) : Action Function) m = _
  cases m.functions.find? "main" with
  | none => rfl
  | some c => cases c <;> rfl

theorem flush_run (p : Position) :
    flush p m =
      if m.sink.flushFails then .error (.fault (.located p (.output .flush))) m else .ok () m := by
  change (if m.sink.flushFails then fail p (.output .flush) else pure () : Action Unit) m = _
  split <;> rfl

end Action

namespace Grant

open Rightflow.Action

variable {g : Grant} {known : View → Prop} {m : Machine} {n : Nat}

/-- In the beginning there are no variables that anything could go wrong with. -/
theorem presides_begin (always : g.since = 0) (sink : Sink) :
    g.Presides (fun _ => False) (.ofBuiltins Builtin.standard sink) where
  store :=
    { since := Nat.le_of_eq always
      typed := fun _ existing => absurd existing (Nat.not_lt_zero _)
      closed := fun _ covered => absurd (g.existing covered) (Nat.not_lt_zero _) }
  frame := ⟨nofun, nofun, nofun⟩
  functions := by
    refine (FunctionTable.isGlobal_empty.insert ?_).insert ?_
    · exact .inr ⟨Builtin.stdout, 0, rfl, List.mem_cons_self⟩
    · exact .inr ⟨Builtin.increment, 1, rfl, List.mem_cons_of_mem _ List.mem_cons_self⟩
  callers := nofun
  known := nofun

/-! ## One request -/

theorem Presides.define (presides : g.Presides known m) (f : Function) :
    Leads (g.Presides known) (define f) m fun _ _ => True := by
  unfold Leads
  rw [define_run]
  cases m.functions.find? f.name with
  | none =>
    -- Only functions of the program are added, to which nothing is bound.
    have isGlobal := presides.functions.insert (x := f.name) (.inl ⟨f, rfl⟩)
    exact ⟨⟨⟨presides.store, presides.frame, isGlobal⟩, presides.callers, presides.known⟩, trivial⟩
  | some c => cases c <;> exact presides

theorem Presides.load (presides : g.Presides known m) (program : Program) :
    Leads (g.Presides known) (load program) m fun _ _ => True := by
  induction program generalizing m with
  | nil => exact ⟨presides, trivial⟩
  | cons f rest inductionHypothesis =>
    refine (presides.define f).bind (fun _ => id) fun _ _ presides' _ => ?_
    exact inductionHypothesis presides'

theorem Presides.mainFunction (presides : g.Presides known m) :
    Leads (g.Presides known) mainFunction m fun _ _ => True := by
  unfold Leads
  rw [mainFunction_run]
  cases m.functions.find? "main" with
  | none => exact presides
  | some c => cases c <;> first | exact ⟨presides, trivial⟩ | exact presides

/-- What activities and operations keep, a request keeps. -/
theorem Presides.of_turns {α : Type} {action : Action α} {Q : α → Store → Prop}
    (presides : g.Presides known m) (leads : Leads (g.Turns m) action m Q) :
    Leads (g.Presides known) action m Q :=
  leads.mono (fun _ => presides.turns) fun _ _ => id

theorem Presides.activity [Host] (presides : g.Presides known m) (t : Activity)
    (held : ∀ a ∈ t.given, g.AllowsArg m.store a) (fits : t.Fits m.store) :
    Leads (g.Presides known) (t.action n) m fun args s => ∀ a ∈ args, g.AllowsArg s a :=
  presides.of_turns (Stands.leads ⟨presides, held, fits⟩)

theorem Presides.run [Host] (presides : g.Presides known m) (program : Program) :
    Leads (g.Presides known) (run n program) m fun _ _ => True := by
  refine (presides.load program).bind (fun _ => id) fun _ m₁ presides₁ _ => ?_
  refine presides₁.mainFunction.bind (fun _ => id) fun f m₂ presides₂ _ => ?_
  have called : Leads (g.Presides known) (Action.call n (.function f) [] f.position) m₂
      g.discipline.HeldValue := presides₂.of_turns <|
    (g.discipline.lawful n).call (.function f) [] f.position m₂ presides₂.toRules
      (Arg.known_function f) nofun
  -- What is left is to hand on the output and to look at the result, and changes nothing.
  refine called.bind (fun _ => id) fun v m₃ presides₃ _ => ?_
  have flushed : Leads (g.Presides known) (flush f.position) m₃ fun _ _ => True := by
    unfold Leads
    rw [flush_run]
    by_cases fails : m₃.sink.flushFails = true
    · rw [if_pos fails]
      exact presides₃
    · rw [if_neg fails]
      exact ⟨presides₃, trivial⟩
  refine flushed.bind (fun _ => id) fun _ m₄ presides₄ _ => ?_
  cases v with
  | int k => exact ⟨presides₄, trivial⟩
  | none | string _ | flt _ | bool _ | callable _ => exact presides₄

theorem Request.leads [Host] (presides : g.Presides known m) (r : Request)
    (held : ∀ a ∈ r.given, g.AllowsArg m.store a) :
    Leads (g.Presides known) (r.action n) m fun args s => ∀ a ∈ args, g.AllowsArg s a := by
  have rules := presides.toRules
  cases r with
  | load program =>
    exact (presides.load program).bind (fun _ => id) fun _ _ presides' _ => ⟨presides', nofun⟩
  | run program =>
    refine (presides.run program).bind (fun _ => id) fun code _ presides' _ => ⟨presides', ?_⟩
    exact List.forall_mem_singleton.mpr (allowsArg_of_constant nofun)
  | eval e => exact presides.activity (.eval e) nofun trivial
  | statement s => exact presides.activity (.statement s) nofun trivial
  | block body => exact presides.activity (.block body) nofun trivial
  | declare x t v p =>
    have heldValue := held (.value v) List.mem_cons_self
    refine (presides.of_turns (declare_turns rules heldValue x t p)).bind (fun _ => id) ?_
    exact fun w _ presides' covered => ⟨presides', List.forall_mem_singleton.mpr covered⟩
  | reassign x v p =>
    have heldValue := held (.value v) List.mem_cons_self
    refine (presides.of_turns (reassign_turns rules heldValue x p)).bind (fun _ => id) ?_
    exact fun _ _ presides' _ => ⟨presides', nofun⟩
  | lookup x =>
    refine ⟨presides, fun a member => ?_⟩
    cases found : m.frame.resolve? x with
    | none => rw [found] at member; cases member
    | some w =>
      rw [found] at member
      obtain rfl := List.mem_singleton.mp member
      exact allowsArg_view.mpr (rules.covers_of_resolve? found)
  | call c args p => exact presides.activity (.call c args p) held trivial
  | takeOutput =>
    exact ⟨⟨⟨presides.store, presides.frame, presides.functions⟩, presides.callers,
      presides.known⟩, nofun⟩

/-! ## All requests -/

/-- What is made of known views is allowed while they are covered. -/
theorem Presides.allowsArg (presides : g.Presides known m) {a : Arg} (possible : a.Known known) :
    g.AllowsArg m.store a :=
  possible.mono presides.known

/-- Views that come to be known keep a grant presiding if they are covered. -/
theorem Presides.know {more : View → Prop} (presides : g.Presides known m)
    (covered : ∀ w, more w → g.Covers m.store w) : g.Presides (fun w => known w ∨ more w) m :=
  ⟨presides.toRules, presides.callers, fun w either =>
    either.elim (presides.known w) (covered w)⟩

theorem covers_of_leaf {s : Store} {a : Arg} {w : View} (allowed : g.AllowsArg s a)
    (member : .view w ∈ a.leaves) : g.Covers s w :=
  allowed (.view w) member

/-- At the end of an action, what it has given is known too. -/
theorem presides_of_leads {action : Action (List Arg)}
    (leads : Leads (g.Presides known) action m fun args s => ∀ a ∈ args, g.AllowsArg s a) :
    g.Presides (fun w => known w ∨ Ending.Gives (action m) w) (Ending.machine (action m)) := by
  unfold Leads at leads
  cases ending : action m with
  | ok args m' =>
    rw [ending] at leads
    refine leads.1.know ?_
    rintro w ⟨a, given, member⟩
    exact covers_of_leaf (leads.2 a given) member
  | error e m' =>
    rw [ending] at leads
    exact leads.know nofun

end Grant

open Grant

variable {g : Grant} {known : View → Prop} {m : Machine} {n : Nat}

theorem Session.presides [Host] (always : g.since = 0) (session : Session known m) :
    g.Presides known m := by
  induction session with
  | begin sink => exact presides_begin always sink
  | request n r before possible inductionHypothesis =>
    exact presides_of_leads (Request.leads inductionHypothesis r fun a member =>
      inductionHypothesis.allowsArg (possible a member))

theorem Request.allStand (presides : g.Presides known m) (r : Request)
    (held : ∀ a ∈ r.given, g.AllowsArg m.store a) : g.AllStand known (r.activities m) := by
  cases r with
  | run program =>
    have leads : Action.Leads (g.Presides known)
        (do Action.load program; Action.mainFunction) m fun _ _ => True :=
      (presides.load program).bind (fun _ => id) fun _ _ presides₁ _ => presides₁.mainFunction
    change g.AllStand known (Activity.after _ m _)
    unfold Activity.after
    cases ending : (do Action.load program; Action.mainFunction : Action Function) m with
    | error e m' => exact allStand_nil
    | ok f m' =>
      have stands : g.Stands known (.call (.function f) [] f.position) m' :=
        ⟨(leads.ok ending).1, List.forall_mem_singleton.mpr (Arg.known_function f), trivial⟩
      exact allStand_single stands
  | eval _ | statement _ | block _ =>
    exact allStand_single (presides.stands _ rfl trivial)
  | call c args p => exact allStand_single ⟨presides, held, trivial⟩
  | load _ | declare _ _ _ _ | reassign _ _ _ | lookup _ | takeOutput => exact allStand_nil

theorem Entered.stands [Host] {t : Activity} (always : g.since = 0)
    (entered : Entered known n t m) : g.Stands known t m := by
  obtain ⟨session, possible, begun, visited⟩ := entered
  have presides := session.presides always
  exact visited.stands (Request.allStand presides _ (fun a member =>
    presides.allowsArg (possible a member)) _ begun)

/-- A grant made in the beginning presides over every state of a session. -/
theorem Reached.presides [Host] (always : g.since = 0) (reached : Reached known m) :
    g.Presides known m := by
  cases reached with
  | between session => exact session.presides always
  | entering entered =>
    have stands := entered.stands always
    -- An activity that begins has nothing in hand but what the grant allows.
    refine stands.machine.know ?_
    rintro w ⟨a, given, member⟩
    exact covers_of_leaf (stands.held a given) member
  | leaving entered =>
    have stands := entered.stands always
    exact presides_of_leads (stands.machine.of_turns stands.leads)

end Rightflow
