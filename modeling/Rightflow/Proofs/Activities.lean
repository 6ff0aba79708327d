import Rightflow.Proofs.Grants

/-!
# In the middle of an evaluation

An activity of a program goes on in others: an operator evaluates its operands, a call runs a block,
a loop tests and calls.  `Activity.inner` lists those that an activity begins itself, each with the
machine in which it begins; `Activity.Visits` follows them down to any depth.  The machines in which
the activities that are visited begin and end are the states that a program passes through, also
those in the middle of nested calls and those before something fails.

A grant that rules the machine in which an activity begins rules all of them
(`Activity.Visits.stands`, `Grant.Stands.leads`), and the standard native functions are entered with
what they are made for (`Activity.Fits`).
-/

namespace Rightflow

/-! ## Activities -/

inductive Activity where
  | eval (e : Expr)
  | callable (e : Expr)
  | arguments (es : List Expr)
  | argument (e : Expr)
  | test (e : Expr)
  | call (c : Callable) (args : List Arg) (p : Position)
  | native (action : Native) (args : List Arg) (p : Position)
  | block (body : Block)
  | statements (body : List Stmt)
  | statement (s : Stmt)
  | otherwise (o : Otherwise)
  | assign (a : Assignment)
  | whileLoop (condition : Expr) (body : Block)
  | loopView (i : Iterator)
  | forLoop (i : Iterator) (condition : Expr) (body : Block) (onIter : Expr) (p : Position)
  | rounds (condition : Expr) (body : Block) (c : Callable) (w : View) (p : Position)

/-- The value that a statement returns, if it does. -/
def Flow.given : Flow → List Arg
  | .normal => []
  | .returned v => [.value v]

namespace Activity

open Rightflow.Action

/-- What an activity has in hand when it begins. -/
def given : Activity → List Arg
  | .call c args _ => .value (.callable c) :: args
  | .native _ args _ => args
  | .rounds _ _ c w _ => [.value (.callable c), .view w]
  | _ => []

variable [Host]

/-- An activity, ending with what it gives. -/
def action (n : Nat) : Activity → Action (List Arg)
  | .eval e => do return [.value (← Action.eval n e)]
  | .callable e => do return [.value (.callable (← evalCallable n e))]
  | .arguments es => evalArgs n es
  | .argument e => do return [← evalArg n e]
  | .test e => do
    let _ ← Action.test n e
    return []
  | .call c args p => do return [.value (← Action.call n c args p)]
  | .native action args p => do
    let _ ← Action.native action args p
    return []
  | .block body => do return (← execBlock n body).given
  | .statements body => do return (← execAll n body).given
  | .statement s => do return (← exec n s).given
  | .otherwise o => do return (← execOtherwise n o).given
  | .assign a => do
    Action.assign n a
    return []
  | .whileLoop condition body => do return (← execWhile n condition body).given
  | .loopView i => do return [.view (← Action.loopView n i)]
  | .forLoop i condition body onIter p => do
    return (← execFor n i condition body onIter p).given
  | .rounds condition body c w p => do return (← iterate n condition body c w p).given

/-- What is begun when an action has given a result, and nothing if it has not. -/
def after {α : Type} (action : Action α) (m : Machine)
    (next : α → Machine → List (Activity × Machine)) : List (Activity × Machine) :=
  match action m with
  | .ok x m' => next x m'
  | .error _ _ => []

/-- The rest of a loop or a list of statements, unless a statement has returned. -/
def unlessReturned (flow : Flow) (rest : List (Activity × Machine)) : List (Activity × Machine) :=
  match flow with
  | .normal => rest
  | .returned _ => []

/-- A condition, and one of two ways to go on. -/
def branching (n : Nat) (condition : Expr) (m : Machine)
    (yes no : Machine → List (Activity × Machine)) : List (Activity × Machine) :=
  (.test condition, m) :: after (Action.test n condition) m fun holds m =>
    if holds then yes m else no m

/-- The evaluations that an activity makes itself, under a bound, from first to last. -/
def inner (n : Nat) (t : Activity) (m : Machine) : List (Activity × Machine) :=
  match t with
  | .eval e =>
    match e with
    | .literal _ _ | .name _ _ => []
    | .unary _ operand _ => [(.eval operand, m)]
    | .binary .decorate left right _ =>
      (.callable left, m) :: after (evalCallable n left) m fun _ m => [(.callable right, m)]
    | .binary _ left right _ =>
      (.eval left, m) :: after (Action.eval n left) m fun _ m => [(.eval right, m)]
    | .call callee args p =>
      (.arguments args, m) :: after (evalArgs n args) m fun as m =>
        (.callable callee, m) :: after (evalCallable n callee) m fun c m => [(.call c as p, m)]
    | .bind callee args _ =>
      (.arguments args, m) :: after (evalArgs n args) m fun _ m => [(.callable callee, m)]
  | .callable e | .test e => [(.eval e, m)]
  | .arguments [] => []
  | .arguments (e :: es) =>
    (.argument e, m) :: after (evalArg n e) m fun _ m => [(.arguments es, m)]
  | .argument e =>
    match e with
    | .name x p => if (m.frame.resolve? x).isSome then [] else [(.eval (.name x p), m)]
    | e => [(.eval e, m)]
  | .call c args p =>
    match c with
    | .bound callee bound _ => [(.call callee (bound ++ args) p, m)]
    | .builtin b _ =>
      after (attempt p (checkArity b.name b.signature.params.length args.length)) m fun _ m =>
        after (attempt p (m.store.bindArgs b.params args)) m fun bound m =>
          [(.native b.native bound p, m)]
    | .function f =>
      after (attempt p (checkArity f.name f.params.length args.length)) m fun _ m =>
        after (bindParams p f.params args) m fun params m =>
          [(.block f.body, m.pushFrame { params := params })]
  | .native _ _ _ => []
  | .block body => [(.statements body, m.pushScope)]
  | .statements [] => []
  | .statements (s :: rest) =>
    (.statement s, m) :: after (exec n s) m fun flow m =>
      unlessReturned flow [(.statements rest, m)]
  | .statement s =>
    match s with
    | .assign a => [(.assign a, m)]
    | .run e _ | .giveBack e _ => [(.eval e, m)]
    | .branch condition body others _ =>
      branching n condition m (fun m => [(.block body, m)]) fun m => [(.otherwise others, m)]
    | .whileLoop condition body _ => [(.whileLoop condition body, m)]
    | .forLoop i condition body onIter p => [(.forLoop i condition body onIter p, m.pushScope)]
  | .otherwise o =>
    match o with
    | .nothing => []
    | .elif condition body others _ =>
      branching n condition m (fun m => [(.block body, m)]) fun m => [(.otherwise others, m)]
    | .block body _ => [(.block body, m)]
  | .assign a => [(.eval a.value, m)]
  | .whileLoop condition body =>
    branching n condition m (fun m => (.block body, m) :: after (execBlock n body) m fun flow m =>
      unlessReturned flow [(.whileLoop condition body, m)]) fun _ => []
  | .loopView (.assign a) => [(.assign a, m)]
  | .loopView (.existing _ _) => []
  | .forLoop i condition body onIter p =>
    (.loopView i, m) :: after (Action.loopView n i) m fun w m =>
      (.callable onIter, m) :: after (evalCallable n onIter) m fun c m =>
        [(.rounds condition body c w p, m)]
  | .rounds condition body c w p =>
    branching n condition m (fun m => (.block body, m) :: after (execBlock n body) m fun flow m =>
      unlessReturned flow ((.call c [.view w] p, m) :: after (Action.call n c [.view w] p) m
        fun _ m => [(.rounds condition body c w p, m)])) fun _ => []

/-- An activity under a bound comes to begin another one, in a machine and under the rest of it. -/
inductive Visits : Nat → Activity → Machine → Nat → Activity → Machine → Prop
  | here (n : Nat) (t : Activity) (m : Machine) : Visits n t m n t m
  | inside {n k : Nat} {t t₁ t' : Activity} {m m₁ m' : Machine}
      (begun : (t₁, m₁) ∈ t.inner n m) (visited : Visits n t₁ m₁ k t' m') :
      Visits (n + 1) t m k t' m'

/-- A native function is entered with what it is made for. -/
def Fits (s : Store) : Activity → Prop
  | .native action args _ => action.Fits s args
  | _ => True

end Activity

/-! ## Grants while an activity goes on -/

namespace Grant

open Activity Rightflow.Action

/-- The machine is ruled, the frames of the callers are overseen too, and so are the views that are
known from outside. -/
structure Presides (g : Grant) (known : View → Prop) (m : Machine) : Prop extends g.Rules m where
  callers : ∀ f ∈ m.callers, g.Oversees m.store f
  known : ∀ w, known w → g.Covers m.store w

structure Stands (g : Grant) (known : View → Prop) (t : Activity) (m : Machine) : Prop where
  machine : g.Presides known m
  held : ∀ a ∈ t.given, g.AllowsArg m.store a
  fits : t.Fits m.store

def AllStand (g : Grant) (known : View → Prop) (activities : List (Activity × Machine)) : Prop :=
  ∀ s ∈ activities, g.Stands known s.1 s.2

variable {g : Grant} {m m' : Machine} {n k : Nat} {t t' : Activity} {mode : Mode}
  {known : View → Prop}

theorem Presides.turns (presides : g.Presides known m) (turned : g.Turns m m') :
    g.Presides known m' := by
  refine ⟨turned.ruled, fun f member => ?_, fun w known => ?_⟩
  · rw [turned.callers] at member
    exact (presides.callers f member).mono turned.store.toGrows
  · exact covers_mono turned.store.toGrows (presides.known w known)

theorem Presides.pushScope (presides : g.Presides known m) : g.Presides known m.pushScope :=
  ⟨⟨presides.store, presides.frame.pushScope, presides.functions⟩, presides.callers,
    presides.known⟩

theorem Presides.pushFrame (presides : g.Presides known m) {views : List View}
    (covered : ∀ w ∈ views, g.Covers m.store w) :
    g.Presides known (m.pushFrame { params := views }) :=
  ⟨⟨presides.store, .params covered, presides.functions⟩,
    List.forall_mem_cons.mpr ⟨presides.frame, presides.callers⟩, presides.known⟩

theorem allStand_nil : g.AllStand known [] := nofun

theorem AllStand.cons {rest : List (Activity × Machine)} (first : g.Stands known t m)
    (later : g.AllStand known rest) : g.AllStand known ((t, m) :: rest) :=
  List.forall_mem_cons.mpr ⟨first, later⟩

theorem allStand_single (stands : g.Stands known t m) : g.AllStand known [(t, m)] :=
  .cons stands allStand_nil

variable [Host]

theorem allStand_after {α : Type} {action : Action α} {Q : α → Store → Prop}
    {next : α → Machine → List (Activity × Machine)} (presides : g.Presides known m)
    (kept : g.discipline.Sat mode action m Q)
    (later : ∀ x m', g.Presides known m' → m.store.Grows m'.store → Q x m'.store →
      g.AllStand known (next x m')) :
    g.AllStand known (after action m next) := by
  have leads : Leads (g.Turns m) action m Q := kept
  unfold after
  cases ending : action m with
  | ok x m' =>
    obtain ⟨turned, result⟩ := leads.ok ending
    exact later x m' (presides.turns turned) turned.store.toGrows result
  | error e m' => exact allStand_nil

omit [Host] in
theorem allStand_unlessReturned {flow : Flow} {rest : List (Activity × Machine)}
    (stand : g.AllStand known rest) : g.AllStand known (unlessReturned flow rest) := by
  cases flow with
  | normal => exact stand
  | returned v => exact allStand_nil

omit [Host] in
/-- An activity that has nothing in hand. -/
theorem Presides.stands (presides : g.Presides known m) (t : Activity) (empty : t.given = [])
    (fits : t.Fits m.store) : g.Stands known t m :=
  ⟨presides, by rw [empty]; exact nofun, fits⟩

theorem allStand_branching (presides : g.Presides known m) (condition : Expr)
    {yes no : Machine → List (Activity × Machine)}
    (taken : ∀ m', g.Presides known m' → m.store.Grows m'.store → g.AllStand known (yes m'))
    (left : ∀ m', g.Presides known m' → g.AllStand known (no m')) :
    g.AllStand known (branching n condition m yes no) := by
  refine .cons (presides.stands _ rfl trivial) ?_
  refine allStand_after presides ((g.discipline.lawful n).test condition m presides.toRules) ?_
  intro holds m' presides' grown _
  cases holds with
  | true => exact taken m' presides' grown
  | false => exact left m' presides'

/-! ## The activities within an activity -/

theorem allStand_call (presides : g.Presides known m) {c : Callable} {args : List Arg} {p : Position}
    (held : ∀ a ∈ (Activity.call c args p).given, g.AllowsArg m.store a) :
    g.AllStand known ((Activity.call c args p).inner n m) := by
  obtain ⟨heldCallee, heldArgs⟩ := List.forall_mem_cons.mp held
  have rules := presides.toRules
  cases c with
  | bound callee bound stamp =>
    obtain ⟨heldInner, heldBound⟩ := g.discipline.held_bound heldCallee
    exact allStand_single ⟨presides, List.forall_mem_cons.mpr ⟨heldInner,
      List.forall_mem_append.mpr ⟨heldBound, heldArgs⟩⟩, trivial⟩
  | builtin b stamp =>
    have standard := Arg.known_builtin.mp heldCallee
    unfold Activity.inner after
    dsimp only
    rw [attempt_run]
    -- The native code is reached only if number and types of the arguments are right.
    by_cases arity : b.signature.params.length = args.length
    · rw [checkArity, if_pos arity]
      dsimp only [Ending.ofExcept]
      rw [attempt_run]
      cases taken : m.store.bindArgs b.params args with
      | error cause => exact allStand_nil
      | ok bound =>
        exact allStand_single ⟨presides, allowsArg_of_bindArgs heldArgs taken,
          Builtin.fits_of_bindArgs presides.store.typed standard (knows_of_allowed heldArgs) arity
            taken⟩
    · rw [checkArity, if_neg arity]
      exact allStand_nil
  | function f =>
    have counted : g.discipline.Sat .closed
        (attempt p (checkArity f.name f.params.length args.length)) m fun _ _ => True :=
      Discipline.attempt p rules fun _ _ => trivial
    refine allStand_after presides counted fun _ m₁ presides₁ grown₁ _ => ?_
    have bound : g.discipline.Sat .closed (bindParams p f.params args) m₁
        fun views s => ∀ w ∈ views, g.Covers s w :=
      bindParams_turns presides₁.toRules (fun a member => (heldArgs a member).mono grown₁) p
    refine allStand_after presides₁ bound fun views m₂ presides₂ _ covered => ?_
    exact allStand_single ((presides₂.pushFrame covered).stands _ rfl trivial)

theorem allStand_eval (presides : g.Presides known m) (e : Expr) :
    g.AllStand known ((Activity.eval e).inner n m) := by
  have rules := presides.toRules
  have lawful := g.discipline.lawful n
  cases e with
  | literal value p | name x p => exact allStand_nil
  | unary op operand p => exact allStand_single (presides.stands _ rfl trivial)
  | binary op left right p =>
    have operands : g.AllStand known ((.eval left, m) :: after (Action.eval n left) m
        fun _ m => [(.eval right, m)]) :=
      .cons (presides.stands _ rfl trivial) <| allStand_after presides (lawful.eval left m rules)
        fun _ _ presides₁ _ _ => allStand_single (presides₁.stands _ rfl trivial)
    cases op with
    | decorate =>
      refine .cons (presides.stands _ rfl trivial) ?_
      exact allStand_after presides (lawful.evalCallable left m rules)
        fun _ _ presides₁ _ _ => allStand_single (presides₁.stands _ rfl trivial)
    | _ => exact operands
  | call callee args p =>
    refine .cons (presides.stands _ rfl trivial) ?_
    refine allStand_after presides (lawful.evalArgs args m rules) ?_
    intro as m₁ presides₁ _ heldArgs
    refine .cons (presides₁.stands _ rfl trivial) ?_
    refine allStand_after presides₁ (lawful.evalCallable callee m₁ presides₁.toRules) ?_
    -- The arguments were evaluated before the callee, and are in hand still.
    intro c m₂ presides₂ grown heldCallee
    exact allStand_single ⟨presides₂,
      List.forall_mem_cons.mpr ⟨heldCallee, heldArgs.mono grown⟩, trivial⟩
  | bind callee args p =>
    refine .cons (presides.stands _ rfl trivial) ?_
    exact allStand_after presides (lawful.evalArgs args m rules)
      fun _ _ presides₁ _ _ => allStand_single (presides₁.stands _ rfl trivial)

theorem allStand_forLoop (presides : g.Presides known m) (i : Iterator) (condition : Expr)
    (body : Block) (onIter : Expr) (p : Position) :
    g.AllStand known ((Activity.forLoop i condition body onIter p).inner n m) := by
  have lawful := g.discipline.lawful n
  refine .cons (presides.stands _ rfl trivial) ?_
  refine allStand_after presides (lawful.loopView i m presides.toRules) ?_
  intro w m₁ presides₁ _ heldView
  refine .cons (presides₁.stands _ rfl trivial) ?_
  refine allStand_after presides₁ (lawful.evalCallable onIter m₁ presides₁.toRules) ?_
  intro c m₂ presides₂ grown heldCallable
  refine allStand_single ⟨presides₂, ?_, trivial⟩
  exact List.forall_mem_cons.mpr ⟨heldCallable,
    List.forall_mem_singleton.mpr (AllowsArg.mono grown heldView)⟩

theorem allStand_rounds (presides : g.Presides known m) {condition : Expr} {body : Block}
    {c : Callable} {w : View} {p : Position}
    (held : ∀ a ∈ (Activity.rounds condition body c w p).given, g.AllowsArg m.store a) :
    g.AllStand known ((Activity.rounds condition body c w p).inner n m) := by
  have lawful := g.discipline.lawful n
  refine allStand_branching presides condition (fun m₁ presides₁ grown₁ => ?_) fun _ _ =>
    allStand_nil
  refine .cons (presides₁.stands _ rfl trivial) ?_
  refine allStand_after presides₁ (lawful.execBlock body m₁ presides₁.toRules) ?_
  intro flow m₂ presides₂ grown₂ _
  -- Every round has the same callable and the same view in hand.
  have held₂ : ∀ a ∈ (Activity.rounds condition body c w p).given, g.AllowsArg m₂.store a :=
    fun a member => (held a member).mono (grown₁.trans grown₂)
  obtain ⟨heldCallable, heldView⟩ := List.forall_mem_cons.mp held₂
  refine allStand_unlessReturned (.cons ⟨presides₂, held₂, trivial⟩ ?_)
  refine allStand_after presides₂
    (lawful.call c [.view w] p m₂ presides₂.toRules heldCallable heldView) ?_
  intro _ m₃ presides₃ grown₃ _
  exact allStand_single ⟨presides₃, fun a member => (held₂ a member).mono grown₃, trivial⟩

/-- Whatever an activity begins, stands if the activity does. -/
theorem Stands.inner (stands : g.Stands known t m) : g.AllStand known (t.inner n m) := by
  obtain ⟨presides, held, _⟩ := stands
  have rules := presides.toRules
  have lawful := g.discipline.lawful n
  have plain (t : Activity) (empty : t.given = []) (fits : t.Fits m.store) :
      g.Stands known t m :=
    presides.stands t empty fits
  cases t with
  | eval e => exact allStand_eval presides e
  | callable e | test e | assign a => exact allStand_single (plain _ rfl trivial)
  | arguments es =>
    cases es with
    | nil => exact allStand_nil
    | cons e es =>
      refine .cons (plain _ rfl trivial) ?_
      exact allStand_after presides (lawful.evalArg e m rules)
        fun _ _ presides₁ _ _ => allStand_single (presides₁.stands _ rfl trivial)
  | argument e =>
    cases e with
    | name x p =>
      simp only [Activity.inner]
      split
      · exact allStand_nil
      · exact allStand_single (plain _ rfl trivial)
    | literal _ _ | unary _ _ _ | binary _ _ _ _ | call _ _ _ | bind _ _ _ =>
      exact allStand_single (plain _ rfl trivial)
  | call c args p => exact allStand_call presides held
  | native action args p => exact allStand_nil
  | block body => exact allStand_single (presides.pushScope.stands _ rfl trivial)
  | statements body =>
    cases body with
    | nil => exact allStand_nil
    | cons s rest =>
      refine .cons (plain _ rfl trivial) ?_
      exact allStand_after presides (lawful.exec s m rules) fun _ _ presides₁ _ _ =>
        allStand_unlessReturned (allStand_single (presides₁.stands _ rfl trivial))
  | statement s =>
    cases s with
    | assign _ | run _ _ | giveBack _ _ | whileLoop _ _ _ =>
      exact allStand_single (plain _ rfl trivial)
    | branch condition body others p =>
      exact allStand_branching presides condition
        (fun _ presides₁ _ => allStand_single (presides₁.stands _ rfl trivial))
        fun _ presides₁ => allStand_single (presides₁.stands _ rfl trivial)
    | forLoop i condition body onIter p =>
      exact allStand_single (presides.pushScope.stands _ rfl trivial)
  | otherwise o =>
    cases o with
    | nothing => exact allStand_nil
    | elif condition body others p =>
      exact allStand_branching presides condition
        (fun _ presides₁ _ => allStand_single (presides₁.stands _ rfl trivial))
        fun _ presides₁ => allStand_single (presides₁.stands _ rfl trivial)
    | block body p => exact allStand_single (plain _ rfl trivial)
  | whileLoop condition body =>
    refine allStand_branching presides condition (fun m₁ presides₁ _ => ?_) fun _ _ => allStand_nil
    refine .cons (presides₁.stands _ rfl trivial) ?_
    exact allStand_after presides₁ (lawful.execBlock body m₁ presides₁.toRules)
      fun _ _ presides₂ _ _ =>
        allStand_unlessReturned (allStand_single (presides₂.stands _ rfl trivial))
  | loopView i =>
    cases i with
    | assign a => exact allStand_single (plain _ rfl trivial)
    | existing x p => exact allStand_nil
  | forLoop i condition body onIter p => exact allStand_forLoop presides i condition body onIter p
  | rounds condition body c w p => exact allStand_rounds presides held

end Grant

open Grant in
theorem Activity.Visits.stands [Host] {g : Grant} {known : View → Prop} {n k : Nat} {t t' : Activity}
    {m m' : Machine} (visited : Visits n t m k t' m') (stands : g.Stands known t m) :
    g.Stands known t' m' := by
  induction visited with
  | here n t m => exact stands
  | inside begun _ inductionHypothesis => exact inductionHypothesis (stands.inner _ begun)

/-! ## How an activity ends -/

namespace Grant

open Rightflow.Action

variable [Host] {g : Grant} {m : Machine} {n : Nat} {t : Activity} {known : View → Prop}

theorem heldFlow_given {flow : Flow} {s : Store} (held : g.discipline.HeldFlow flow s) :
    ∀ a ∈ flow.given, g.AllowsArg s a := by
  cases flow with
  | normal => exact nofun
  | returned v => exact List.forall_mem_singleton.mpr (held v rfl)

/-- An activity that stands leads to a ruled machine, and gives nothing that the grant does not
allow. -/
theorem Stands.leads (stands : g.Stands known t m) :
    Leads (g.Turns m) (t.action n) m fun args s => ∀ a ∈ args, g.AllowsArg s a := by
  obtain ⟨presides, held, fits⟩ := stands
  have rules := presides.toRules
  have lawful := g.discipline.lawful n
  have single {s : Store} {a : Arg} (allowed : g.AllowsArg s a) : ∀ b ∈ [a], g.AllowsArg s b :=
    List.forall_mem_singleton.mpr allowed
  -- What is given is what the action ends with, put into a list.
  have gives {α : Type} {mode : Mode} {action : Action α} {Q : α → Store → Prop}
      (kept : g.discipline.Sat mode action m Q) (list : α → List Arg)
      (allowed : ∀ x s, Q x s → ∀ a ∈ list x, g.AllowsArg s a) :
      g.discipline.Sat mode (do return list (← action)) m g.discipline.HeldArgs :=
    g.discipline.sequence kept fun x _ ruled _ result =>
      g.discipline.result ruled (allowed x _ result)
  cases t with
  | eval e => exact gives (lawful.eval e m rules) (fun v => [.value v]) fun _ _ => single
  | callable e =>
    exact gives (lawful.evalCallable e m rules) (fun c => [.value (.callable c)]) fun _ _ => single
  | arguments es => exact lawful.evalArgs es m rules
  | argument e => exact gives (lawful.evalArg e m rules) (fun a => [a]) fun _ _ => single
  | test e => exact gives (lawful.test e m rules) (fun _ => []) fun _ _ _ => nofun
  | call c args p =>
    obtain ⟨heldCallee, heldArgs⟩ := List.forall_mem_cons.mp held
    exact gives (lawful.call c args p m rules heldCallee heldArgs) (fun v => [.value v])
      fun _ _ => single
  | native action args p =>
    have kept : g.discipline.Sat .closed (Action.native action args p) m fun _ _ => True :=
      Leads.of_machine (native_turns rules held fits p) fun _ _ => trivial
    exact gives kept (fun _ => []) fun _ _ _ => nofun
  | block body => exact gives (lawful.execBlock body m rules) Flow.given fun _ _ => heldFlow_given
  | statements body =>
    exact gives (lawful.execAll body m rules) Flow.given fun _ _ => heldFlow_given
  | statement s => exact gives (lawful.exec s m rules) Flow.given fun _ _ => heldFlow_given
  | otherwise o =>
    exact gives (lawful.execOtherwise o m rules) Flow.given fun _ _ => heldFlow_given
  | assign a => exact gives (lawful.assign a m rules) (fun _ => []) fun _ _ _ => nofun
  | whileLoop condition body =>
    exact gives (lawful.execWhile condition body m rules) Flow.given fun _ _ => heldFlow_given
  | loopView i => exact gives (lawful.loopView i m rules) (fun w => [.view w]) fun _ _ => single
  | forLoop i condition body onIter p =>
    exact gives (lawful.execFor i condition body onIter p m rules) Flow.given
      fun _ _ => heldFlow_given
  | rounds condition body c w p =>
    obtain ⟨heldCallable, heldView⟩ := List.forall_mem_cons.mp held
    exact gives (lawful.iterate condition body c w p m rules heldCallable
      (heldView _ List.mem_cons_self)) Flow.given fun _ _ => heldFlow_given

end Grant

end Rightflow
