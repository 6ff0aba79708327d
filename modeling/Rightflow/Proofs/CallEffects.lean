import Rightflow.Proofs.StoreTyping

/-!
# What a call may change

A call can change a variable that was there before only if it was given a way to it: from what the
parameters take, through references and callables, there is a view of the variable that is mutable.
A parameter that is not mutable restricts the view that it takes, and no view gains mutability on
the way.  `calls_write_what_they_reach` states this of every call in every state of a session.

Behind it is the grant of just these views, `Grant.reaching`, under which the body of the function
runs.
-/

namespace Rightflow

/-! ## Callables without what is bound to them -/

namespace Callable

/-- The parameters of the function that is called in the end. -/
def params : Callable → List Param
  | .function f => f.params
  | .builtin b _ => b.params
  | .bound callee _ _ => callee.params

/-- What is bound to a callable, from the inside out. -/
def preset : Callable → List Arg
  | .bound callee args _ => callee.preset ++ args
  | .function _ | .builtin _ _ => []

end Callable

/-- The views in a list of arguments. -/
def Arg.Lists (args : List Arg) (w : View) : Prop := ∃ a ∈ args, .view w ∈ a.leaves

/-! ## Reaching -/

namespace Store

variable {s : Store}

theorem Reaches.mono {roots more : View → Prop} (wider : ∀ w, roots w → more w) {w : View}
    (reached : s.Reaches roots w) : s.Reaches more w := by
  induction reached with
  | root start => exact .root (wider _ start)
  | through _ member inductionHypothesis => exact .through inductionHypothesis member

theorem Reaches.exists_root {roots : View → Prop} {w : View} (reached : s.Reaches roots w) :
    ∃ u, roots u := by
  induction reached with
  | root start => exact ⟨_, start⟩
  | through _ _ inductionHypothesis => exact inductionHypothesis

/-- What is reached from arguments is one of them, or reached from what one of them stands for. -/
theorem Reaches.cases_arg {args : List Arg} {w : View} (reached : s.Reaches (Arg.Lists args) w) :
    .view w ∈ args ∨
      ∃ a ∈ args, s.Reaches (fun u => .view u ∈ (s.argValue a).leaves) w := by
  induction reached with
  | root start =>
    obtain ⟨a, given, member⟩ := start
    cases a with
    | value v => exact .inr ⟨.value v, given, .root (by rwa [Arg.leaves_value] at member)⟩
    | view u =>
      rw [Arg.leaves_view] at member
      cases List.mem_singleton.mp member
      exact .inl given
  | through _ member inductionHypothesis =>
    -- One step on from an argument that is a view, one is inside the value of its variable.
    rcases inductionHypothesis with given | ⟨a, given, before⟩
    · exact .inr ⟨.view _, given, .root member⟩
    · exact .inr ⟨a, given, .through before member⟩

/-- What a parameter takes stands for nothing that the argument does not stand for. -/
theorem mem_leaves_argValue_of_bindArg {x : Param} {a b : Arg} (taken : s.bindArg x a = .ok b)
    {l : Leaf} (member : l ∈ (s.argValue b).leaves) : l ∈ (s.argValue a).leaves := by
  rcases bindArg_ok taken with ⟨v, v', rfl, given, rfl⟩ | ⟨w, rfl, _, _, rfl⟩
  · exact Value.mem_leaves_of_cast given member
  · exact member

end Store

/-- The views that can be reached from some in a store, with no more mutability, and all views of
later variables. -/
def Grant.reaching (base : Store) (roots : View → Prop) : Grant where
  since := base.size
  Covers s w := w.cell < s.size ∧ (base.size ≤ w.cell ∨
    ∃ u, base.Reaches roots u ∧ u.cell = w.cell ∧ (w.mutable = true → u.mutable = true))
  existing covered := covered.1
  stable grown existing :=
    ⟨fun covered => ⟨existing, covered.2⟩,
      fun covered => ⟨Nat.lt_of_lt_of_le existing grown.size, covered.2⟩⟩
  restrict covered weaker := by
    obtain ⟨existing, later | ⟨u, reached, same, mutable⟩⟩ := covered
    · exact ⟨existing, .inl later⟩
    · exact ⟨existing, .inr ⟨u, reached, same, fun kept => mutable (weaker kept)⟩⟩
  fresh later := by
    refine ⟨?_, .inl later⟩
    rw [Store.size_create]
    exact Nat.lt_succ_self _

namespace Grant

variable {s : Store} {roots : View → Prop}

theorem governs_reaching (governed : everything.Governs s) : (reaching s roots).Governs s where
  since := Nat.le_refl _
  typed := governed.typed
  closed w covered := by
    -- There are no later variables yet, so the view is one of a variable that can be reached.
    obtain ⟨existing, later | ⟨u, reached, same, _⟩⟩ := covered
    · exact absurd existing (Nat.not_lt.mpr later)
    · intro l member
      have known := governed.closed w existing l member
      cases l with
      | function f => trivial
      | builtin b => exact known
      | view v =>
        rw [← same] at member
        exact ⟨known, .inr ⟨v, .through reached member, rfl, id⟩⟩

theorem allowsArg_reaching {args : List Arg} (existing : ∀ a ∈ args, everything.AllowsArg s a) :
    ∀ a ∈ args, (reaching s (Arg.Lists args)).AllowsArg s a := by
  intro a given l member
  have known := existing a given l member
  cases l with
  | function f => trivial
  | builtin b => exact known
  | view w => exact ⟨known, .inr ⟨w, .root ⟨a, given, member⟩, rfl, id⟩⟩

/-- A variable of the beginning that was written under such a grant can be reached by a mutable
view. -/
theorem Evolves.reached {s' : Store} (evolved : (reaching s roots).Evolves s s') {cell : Nat}
    (existed : cell < s.size) (changed : s'.get cell ≠ s.get cell) :
    ∃ w, s.Reaches roots w ∧ w.cell = cell ∧ w.mutable = true := by
  rcases evolved.written cell existed with same | ⟨w, covered, rfl, mutable⟩
  · exact absurd same changed
  · obtain ⟨_, later | ⟨u, reached, same, kept⟩⟩ := covered
    · exact absurd existed (Nat.not_lt.mpr later)
    · exact ⟨u, reached, same, kept mutable⟩

end Grant

/-! ## Calls -/

/-- There is a way from what the parameters of a call take to a variable, and it ends in a mutable
view. -/
def Store.Exposes (s : Store) (c : Callable) (args : List Arg) (cell : Nat) : Prop :=
  ∃ bound, s.bindArgs c.params (c.preset ++ args) = .ok bound ∧
    ∃ w, s.Reaches (Arg.Lists bound) w ∧ w.cell = cell ∧ w.mutable = true

/-- A variable that is passed to no mutable parameter, and is bound to no callable that is passed,
is not exposed. -/
theorem Store.not_exposes {s : Store} {c : Callable} {args : List Arg} {cell : Nat}
    (restricted : ∀ x w, (x, .view w) ∈ c.params.zip (c.preset ++ args) → w.cell = cell →
      x.type.isMutable = false)
    (uncaptured : ∀ a ∈ c.preset ++ args, ∀ w,
      s.Reaches (fun u => .view u ∈ (s.argValue a).leaves) w → w.cell ≠ cell) :
    ¬ s.Exposes c args cell := by
  rintro ⟨bound, taken, w, reached, same, mutable⟩
  rcases reached.cases_arg with direct | ⟨b, given, captured⟩
  · obtain ⟨x, a, among, head⟩ := exists_of_mem_bindArgs taken direct
    rcases bindArg_ok head with ⟨_, _, _, _, value⟩ | ⟨u, rfl, _, _, view⟩
    · cases value
    · -- The view that the parameter takes is as mutable as the parameter.
      cases view
      rw [restricted x u among same] at mutable
      cases mutable
  · obtain ⟨x, a, among, head⟩ := exists_of_mem_bindArgs taken given
    exact uncaptured a (List.of_mem_zip among).2 w
      (captured.mono fun _ => mem_leaves_argValue_of_bindArg head) same

namespace Action

open Grant

variable {m : Machine}

theorem call_function_exposes [Host] (governed : everything.Governs m.store)
    (isGlobal : m.functions.IsGlobal) (n : Nat) (f : Function) {args : List Arg}
    (existing : ∀ a ∈ args, everything.AllowsArg m.store a) (p : Position) {cell : Nat}
    (existed : cell < m.store.size)
    (changed : (Ending.machine (call (n + 1) (.function f) args p m)).store.get cell ≠
      m.store.get cell) :
    m.store.Exposes (.function f) args cell := by
  obtain ⟨bound, views, s, adopted, _, ending⟩ :=
    bindParams_adopts p f.params args m (knows_of_allowed existing)
  have kept : s.get cell = m.store.get cell := adopted.get existed
  rw [call_function_run] at changed
  cases arity : checkArity f.name f.params.length args.length with
  | error cause => rw [arity] at changed; exact absurd rfl changed
  | ok _ =>
    rw [arity] at changed
    dsimp only at changed
    rcases ending with ⟨ran, taken⟩ | ⟨cause, ran, _⟩
    · -- The body runs under the grant of what can be reached from what was bound.
      refine ⟨bound, taken, ?_⟩
      let g := reaching m.store (Arg.Lists bound)
      have allowed : ∀ a ∈ bound, g.AllowsArg m.store a :=
        allowsArg_reaching (allowsArg_of_bindArgs existing taken)
      obtain ⟨governs, covered⟩ := (governs_reaching governed).adopt adopted allowed
      let inside : Machine := { m with store := s }.pushFrame { params := views }
      have rules : g.Rules inside := ⟨governs, .params covered, isGlobal⟩
      have turned : g.Turns inside (Ending.machine (execBlock n f.body inside)) :=
        Leads.machine ((g.discipline.lawful n).execBlock f.body inside rules)
      have evolved := (Evolves.adopt adopted).trans turned.store
      refine evolved.reached existed ?_
      rw [ran] at changed
      dsimp only at changed
      cases body : execBlock n f.body inside with
      | error e m₂ => rw [body] at changed; exact changed
      | ok flow m₂ =>
        rw [body] at changed
        dsimp only at changed
        cases result : flow.result f.ret <;> rw [result] at changed <;> exact changed
    · -- An argument is not taken: the body does not run, and there are only more variables.
      rw [ran] at changed
      exact absurd kept changed

theorem call_builtin_exposes [Host] (governed : everything.Governs m.store) {b : Builtin}
    {stamp : Nat} (standard : b ∈ Builtin.standard) {args : List Arg}
    (existing : ∀ a ∈ args, everything.AllowsArg m.store a) (p : Position) {cell : Nat}
    (existed : cell < m.store.size)
    (changed : (Ending.machine (callBuiltin b args p m)).store.get cell ≠ m.store.get cell) :
    m.store.Exposes (.builtin b stamp) args cell := by
  rw [callBuiltin_run, checkArity] at changed
  by_cases arity : b.signature.params.length = args.length
  · rw [if_pos arity] at changed
    dsimp only at changed
    cases taken : m.store.bindArgs b.params args with
    | error cause => rw [taken] at changed; exact absurd rfl changed
    | ok bound =>
      rw [taken] at changed
      dsimp only at changed
      refine ⟨bound, taken, ?_⟩
      let g := reaching m.store (Arg.Lists bound)
      have allowed : ∀ a ∈ bound, g.AllowsArg m.store a :=
        allowsArg_reaching (allowsArg_of_bindArgs existing taken)
      have fits := Builtin.fits_of_bindArgs governed.typed standard (knows_of_allowed existing)
        arity taken
      obtain ⟨s, sink, ending, evolved, _⟩ :=
        native_evolves (governs_reaching governed) allowed fits p
      refine evolved.reached existed ?_
      have store : (Ending.machine (native b.native bound p m)).store = s := by rw [ending]
      rw [← store]
      cases ran : native b.native bound p m <;> rw [ran] at changed <;> exact changed
  · rw [if_neg arity] at changed
    exact absurd rfl changed

/-- A call that has changed a variable was exposed to it. -/
theorem call_exposes [Host] (governed : everything.Governs m.store)
    (isGlobal : m.functions.IsGlobal) (n : Nat) (c : Callable) {args : List Arg}
    (existingCallee : everything.AllowsArg m.store (.value (.callable c)))
    (existing : ∀ a ∈ args, everything.AllowsArg m.store a) (p : Position) {cell : Nat}
    (existed : cell < m.store.size)
    (changed : (Ending.machine (call n c args p m)).store.get cell ≠ m.store.get cell) :
    m.store.Exposes c args cell := by
  induction n generalizing c args with
  | zero => exact absurd rfl changed
  | succ n inductionHypothesis =>
    cases c with
    | function f => exact call_function_exposes governed isGlobal n f existing p existed changed
    | builtin b stamp =>
      exact call_builtin_exposes governed (Arg.known_builtin.mp existingCallee) existing p existed
        changed
    | bound callee bound stamp =>
      -- What is bound comes before what is given, as it does in `Callable.preset`.
      obtain ⟨heldInner, heldBound⟩ := everything.discipline.held_bound existingCallee
      have exposed := inductionHypothesis callee heldInner
        (List.forall_mem_append.mpr ⟨heldBound, existing⟩) changed
      unfold Store.Exposes Callable.params Callable.preset
      rwa [List.append_assoc]

end Action

/-- In every state of a session, a call of any callable with any arguments changes no variables but
those that it is exposed to, however it ends.  So a variable keeps its value that is passed to no
mutable parameter and is bound to no callable that is passed. -/
theorem calls_write_what_they_reach [Host] {known : View → Prop} {m : Machine}
    (reached : Reached known m) (n : Nat) (c : Callable) (args : List Arg) (p : Position)
    (existing : ∀ a ∈ .value (.callable c) :: args, a.Known fun w => w.cell < m.store.size) :
    (∀ cell < m.store.size,
      ((Ending.machine (Action.call n c args p m)).store.get cell).value ≠
          (m.store.get cell).value →
        m.store.Exposes c args cell) ∧
    ∀ cell < m.store.size,
      (∀ x w, (x, .view w) ∈ c.params.zip (c.preset ++ args) → w.cell = cell →
        x.type.isMutable = false) →
      (∀ a ∈ c.preset ++ args, ∀ w,
        m.store.Reaches (fun u => .view u ∈ (m.store.argValue a).leaves) w → w.cell ≠ cell) →
      ((Ending.machine (Action.call n c args p m)).store.get cell).value =
        (m.store.get cell).value := by
  have presides : Grant.everything.Presides known m := reached.presides rfl
  obtain ⟨existingCallee, existingArgs⟩ := List.forall_mem_cons.mp existing
  have exposed (cell : Nat) (existed : cell < m.store.size)
      (changed : ((Ending.machine (Action.call n c args p m)).store.get cell).value ≠
        (m.store.get cell).value) : m.store.Exposes c args cell :=
    Action.call_exposes presides.store presides.functions n c existingCallee existingArgs p existed
      fun same => changed (by rw [same])
  refine ⟨exposed, fun cell existed restricted uncaptured => ?_⟩
  by_contra changed
  exact Store.not_exposes restricted uncaptured (exposed cell existed changed)

/-- `(x) -> increment` changes `x`, to which it is exposed; `("x") -> stdout` does not. -/
theorem declaredSession_call_effects :
    let increments := Action.call 9 (.builtin Builtin.increment 1) [.view ⟨0, "x", true⟩] .start
    let writes := Action.call 9 (.builtin Builtin.stdout 0) [.value (.string "x")] .start
    (∃ known, Reached known declaredSession) ∧
    ((Ending.machine (increments declaredSession)).store.get 0).value = .int 2 ∧
    declaredSession.store.Exposes (.builtin Builtin.increment 1) [.view ⟨0, "x", true⟩] 0 ∧
    ((Ending.machine (writes declaredSession)).store.get 0).value =
      (declaredSession.store.get 0).value := by
  obtain ⟨known, session⟩ := session_declaredSession
  have text : (Value.string "x").leaves = [] := Value.IsConstant.leaves nofun
  have incremented := calls_write_what_they_reach (.between session) 9
    (.builtin Builtin.increment 1) [.view ⟨0, "x", true⟩] .start
    (List.forall_mem_cons.mpr ⟨Arg.known_builtin.mpr (.tail _ (.head _)),
      List.forall_mem_singleton.mpr (Arg.known_view.mpr (by decide))⟩)
  have written := calls_write_what_they_reach (.between session) 9
    (.builtin Builtin.stdout 0) [.value (.string "x")] .start
    (List.forall_mem_cons.mpr ⟨Arg.known_builtin.mpr (.head _),
      List.forall_mem_singleton.mpr (Arg.known_of_constant text)⟩)
  refine ⟨⟨known, .between session⟩, rfl, incremented.1 0 (by decide) ?_,
    written.2 0 (by decide) ?_ ?_⟩
  · change Value.int 2 ≠ Value.int 1
    intro same
    injection same with same
    exact absurd same (by decide)
  · intro x w among
    cases List.mem_singleton.mp among
  · intro a given w captured
    obtain rfl := List.mem_singleton.mp given
    obtain ⟨u, root⟩ := captured.exists_root
    change .view u ∈ (Value.string "x").leaves at root
    rw [text] at root
    cases root

end Rightflow
