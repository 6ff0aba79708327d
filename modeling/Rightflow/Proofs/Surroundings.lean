import Rightflow.Proofs.Discipline
import Rightflow.Proofs.Endings

/-!
# What an evaluation leaves alone

However an evaluation ends, the functions, the frames of the callers and the frame in which it was
begun are as they were before: every scope and every frame that it opens is closed again.  The store
only grows, and in a variable that was there only the value may have changed; the sink keeps what it
was given.  All this holds on every host, whatever its functions do.  The one exception is a
statement that declares a variable, which adds it to the innermost scope.

The main statement is `evaluation_keeps_surroundings`.  It rests on the discipline `surroundings`,
in which what an action may do to its frame depends on its mode.
-/

namespace Rightflow

/-! ## Frames -/

/-- A later state of a frame in which variables may have been declared. -/
def Frame.Declares (f f' : Frame) : Prop :=
  f' = f ∨ ∃ added, f' = { f with scopes := (added ++ f.innermost) :: f.scopes.tail }

theorem Frame.Declares.trans {f f' f'' : Frame} (first : f.Declares f')
    (second : f'.Declares f'') : f.Declares f'' := by
  rcases first with rfl | ⟨added, rfl⟩
  · exact second
  · rcases second with rfl | ⟨more, rfl⟩
    · exact .inr ⟨added, rfl⟩
    · exact .inr ⟨more ++ added, by simp only [Frame.innermost, List.headD_cons, List.tail_cons,
        List.append_assoc]⟩

theorem Frame.declares_withScope (f : Frame) : f.Declares f.withScope := by
  unfold Frame.withScope
  split
  next empty => exact .inr ⟨[], by simp only [Frame.pushScope, Frame.innermost, empty]; rfl⟩
  next => exact .inl rfl

theorem Frame.declare_withScope (f : Frame) (w : View) : f.withScope.declare w = f.declare w := by
  unfold Frame.withScope
  split
  next empty => simp only [Frame.declare, Frame.pushScope, Frame.innermost, empty]; rfl
  next => rfl

theorem Frame.declares_declare (f : Frame) (w : View) : f.Declares (f.declare w) :=
  .inr ⟨[w], rfl⟩

/-- What was declared in a scope goes with the scope. -/
theorem Frame.Declares.popScope {f f' : Frame} (declared : f.pushScope.Declares f') :
    f'.popScope = f := by
  rcases declared with rfl | ⟨added, rfl⟩ <;> rfl

/-- What an action may do to the frame in which it is begun. -/
def Mode.Allows : Mode → Frame → Frame → Prop
  | .closed, f, f' => f' = f
  | .declaring, f, f' => f.Declares f'

theorem Mode.Allows.refl (mode : Mode) (f : Frame) : mode.Allows f f := by
  cases mode with
  | closed => rfl
  | declaring => exact .inl rfl

theorem Mode.Allows.trans {mode : Mode} {f f' f'' : Frame} (first : mode.Allows f f')
    (second : mode.Allows f' f'') : mode.Allows f f'' := by
  cases mode with
  | closed => exact Eq.trans second first
  | declaring => exact Frame.Declares.trans first second

/-! ## Machines -/

/-- A later state of a machine, as far as the frame is not looked at. -/
structure Machine.Around (m m' : Machine) : Prop where
  functions : m'.functions = m.functions
  callers : m'.callers = m.callers
  store : m.store.Grows m'.store
  sink : m.sink.Extends m'.sink

/-- A later state of a machine in the same surroundings. -/
structure Machine.Undisturbed (m m' : Machine) : Prop extends m.Around m' where
  frame : m'.frame = m.frame

/-- A later state of a machine, reached by an action of some mode. -/
structure Machine.Keeps (mode : Mode) (m m' : Machine) : Prop extends m.Around m' where
  frame : mode.Allows m.frame m'.frame

theorem Machine.Around.trans {m m' m'' : Machine} (first : m.Around m') (second : m'.Around m'') :
    m.Around m'' where
  functions := second.functions.trans first.functions
  callers := second.callers.trans first.callers
  store := first.store.trans second.store
  sink := first.sink.trans second.sink

theorem Machine.around_refl (m : Machine) : m.Around m := ⟨rfl, rfl, .refl _, .refl _⟩

theorem Machine.around_of_store {m : Machine} {s : Store} (grown : m.store.Grows s) :
    m.Around { m with store := s } :=
  ⟨rfl, rfl, grown, .refl _⟩

theorem Machine.keeps_refl (mode : Mode) (m : Machine) : Machine.Keeps mode m m :=
  ⟨m.around_refl, .refl mode _⟩

theorem Machine.keeps_of_store {m : Machine} {s : Store} (mode : Mode) (grown : m.store.Grows s) :
    Machine.Keeps mode m { m with store := s } :=
  ⟨Machine.around_of_store grown, .refl mode _⟩

theorem Machine.Keeps.trans {mode : Mode} {m m' m'' : Machine} (first : Machine.Keeps mode m m')
    (second : Machine.Keeps mode m' m'') : Machine.Keeps mode m m'' :=
  ⟨first.toAround.trans second.toAround, first.frame.trans second.frame⟩

theorem Machine.Keeps.undisturbed {m m' : Machine} (kept : Machine.Keeps .closed m m') :
    m.Undisturbed m' :=
  ⟨kept.toAround, kept.frame⟩

theorem Machine.Keeps.close {m m' : Machine} (mode : Mode) (kept : Machine.Keeps .closed m m') :
    Machine.Keeps mode m m' := by
  obtain ⟨around, same⟩ := kept
  refine ⟨around, ?_⟩
  rw [show m'.frame = m.frame from same]
  exact .refl mode _

/-- A scope that was opened and closed again is gone. -/
theorem Machine.Keeps.popScope {m m' : Machine} (kept : Machine.Keeps .declaring m.pushScope m') :
    Machine.Keeps .closed m m'.popScope :=
  ⟨⟨kept.functions, kept.callers, kept.store, kept.sink⟩, Frame.Declares.popScope kept.frame⟩

/-- A frame that was opened and closed again is gone. -/
theorem Machine.Keeps.popFrame {m m' : Machine} {f : Frame} {mode : Mode}
    (kept : Machine.Keeps mode (m.pushFrame f) m') : Machine.Keeps .closed m m'.popFrame := by
  -- Until the body has ended, the frame to come back to is the latest of the callers.
  have callers : m'.callers = m.frame :: m.callers := kept.callers
  refine ⟨⟨kept.functions, ?_, kept.store, kept.sink⟩, ?_⟩
  · change m'.callers.tail = m.callers
    rw [callers]
    rfl
  · change m'.callers.headD {} = m.frame
    rw [callers]
    rfl

/-! ## The discipline -/

namespace Action

variable {α β : Type} {m : Machine} {mode : Mode}

theorem bindParam_keeps (x : Param) (a : Arg) (p : Position) :
    Machine.Keeps mode m (Ending.machine (bindParam x a p m)) := by
  rw [bindParam_run]
  split
  · exact m.keeps_refl mode
  · rw [create_run]
    exact Machine.keeps_of_store mode (.create _ _)
  · exact m.keeps_refl mode

theorem bindParams_keeps (p : Position) (params : List Param) (args : List Arg) :
    Leads (m.Keeps mode) (bindParams p params args) m fun _ _ => True := by
  induction params generalizing args m with
  | nil => exact Leads.of_machine (m.keeps_refl mode) fun _ _ => trivial
  | cons x xs inductionHypothesis =>
    cases args with
    | nil => exact Leads.of_machine (m.keeps_refl mode) fun _ _ => trivial
    | cons a as =>
      refine (Leads.of_machine (bindParam_keeps x a p) fun _ _ => trivial).bind
        (Q := fun _ _ => True) (fun _ => id) fun w m₁ kept₁ _ => ?_
      -- A parameter that cannot be bound ends it, with the variables made so far in the store.
      refine (inductionHypothesis as).bind (fun m₂ kept₂ => kept₁.trans kept₂) ?_
      intro ws m₂ kept₂ _
      exact ⟨kept₁.trans kept₂, trivial⟩

theorem foreign_keeps [Host] (code : Nat) (args : List Arg) (p : Position) :
    Machine.Keeps .closed m (Ending.machine (foreign code args p m)) := by
  have grown := Host.grows code args p m.store m.sink
  have written := Host.writes code args p m.store m.sink
  rw [foreign_run, Ending.ofReply]
  split <;> exact ⟨⟨rfl, rfl, grown, written⟩, rfl⟩

theorem writeValue_keeps (v : Value) (p : Position) :
    Machine.Keeps .closed m (Ending.machine (writeValue v p m)) := by
  have written := Sink.Extends.writeAll m.sink v.pieces
  rw [writeValue_run]
  dsimp only
  split <;> exact ⟨⟨rfl, rfl, .refl _, written⟩, rfl⟩

theorem incrementArg_keeps (a : Arg) (p : Position) :
    Machine.Keeps .closed m (Ending.machine (incrementArg a p m)) := by
  cases a with
  | value v => exact m.keeps_refl .closed
  | view w =>
    rw [incrementArg_run]
    split
    · split
      · exact Machine.keeps_of_store .closed (.set _ _ _)
      · exact m.keeps_refl .closed
    · exact m.keeps_refl .closed

theorem native_keeps [Host] (action : Native) (args : List Arg) (p : Position) :
    Machine.Keeps .closed m (Ending.machine (native action args p m)) := by
  cases action with
  | foreign code => exact foreign_keeps code args p
  | write =>
    cases args with
    | nil => exact m.keeps_refl .closed
    | cons a rest =>
      rw [native_write, machine_map fun _ => Value.none]
      exact writeValue_keeps (m.store.argValue a) p
  | increment =>
    cases args with
    | nil => exact m.keeps_refl .closed
    | cons a rest =>
      rw [native_increment, machine_map fun _ => Value.none]
      exact incrementArg_keeps a p

theorem callBuiltin_keeps [Host] (b : Builtin) (args : List Arg) (p : Position) :
    Machine.Keeps .closed m (Ending.machine (callBuiltin b args p m)) := by
  rw [callBuiltin_run]
  split
  · exact m.keeps_refl .closed
  · split
    · exact m.keeps_refl .closed
    · exact native_keeps b.native _ p

theorem reassign_keeps (x : String) (v : Value) (p : Position) :
    Machine.Keeps .closed m (Ending.machine (reassign x v p m)) := by
  rw [reassign_run]
  split
  · exact m.keeps_refl .closed
  · split
    · split
      · exact Machine.keeps_of_store .closed (.set _ _ _)
      · exact m.keeps_refl .closed
    · exact m.keeps_refl .closed

theorem declare_keeps (x : String) (t : Ty) (v : Value) (p : Position) :
    Machine.Keeps .declaring m (Ending.machine (declare x t v p m)) := by
  have opened : Machine.Keeps .declaring m { m with frame := m.frame.withScope } :=
    ⟨⟨rfl, rfl, .refl _, .refl _⟩, m.frame.declares_withScope⟩
  rw [declare_run]
  split
  · exact m.keeps_refl .declaring
  · split
    · exact opened
    · split
      · refine ⟨⟨rfl, rfl, .create _ _, .refl _⟩, ?_⟩
        exact Frame.Declares.trans m.frame.declares_withScope (Frame.declares_declare _ _)
      · exact opened

theorem name_keeps (x : String) (p : Position) :
    Machine.Keeps .closed m (Ending.machine (name x p m)) := by
  rw [name_run]
  split
  · exact m.keeps_refl .closed
  · split <;> exact m.keeps_refl .closed

end Action

open Rightflow.Action in
/-- Actions that leave their surroundings alone, but for what their mode allows. -/
def surroundings [Host] : Discipline where
  toReliance := .none
  Sat mode _ action m Q := Leads (m.Keeps mode) action m Q
  result _ known := ⟨Machine.keeps_refl _ _, known⟩
  halt _ _ := Machine.keeps_refl _ _
  sequence kept later := kept.bind (fun _ => id) fun x m₁ kept₁ known =>
    (later x m₁ trivial trivial known).mono (fun _ kept₂ => kept₁.trans kept₂) fun _ _ => id
  close kept := kept.mono (fun _ => .close _) fun _ _ => id
  name x p _ := Leads.of_machine (name_keeps x p) fun _ _ => trivial
  resolve? _ _ := ⟨Machine.keeps_refl _ _, fun _ _ => trivial⟩
  bindFront _ _ _ := ⟨Machine.keeps_of_store .closed (.stamp _), trivial⟩
  callBuiltin {_ b _ args} p _ _ _ := Leads.of_machine (callBuiltin_keeps b args p) fun _ _ => trivial
  declare {_ v} x t p _ _ := Leads.of_machine (declare_keeps x t v p) fun _ _ => trivial
  reassign {_ v} x p _ _ := Leads.of_machine (reassign_keeps x v p) fun _ _ => trivial
  inScope _ body := leads_inScope ((body trivial).mono (fun _ kept => kept.popScope) fun _ _ => id)
  enter {m _ body Q params args} p _ _ kept := by
    refine (bindParams_keeps p params args).bind (fun _ => id) fun views m₁ kept₁ _ => ?_
    have inside := kept (m₁.pushFrame { params := views }) trivial
    exact leads_inFrame (inside.mono (fun _ kept₂ => kept₁.trans kept₂.popFrame) fun _ _ => id)

/-! ## Statements -/

/-- A later state of a machine in which a frame has one variable more, which is a new one. -/
def Machine.DeclaresOne (m m' : Machine) (x : String) (t : Ty) : Prop :=
  ∃ w, m'.frame = m.frame.declare w ∧ w = m'.store.directView w.cell ∧
    (m'.store.get w.cell).name = x ∧ (m'.store.get w.cell).type = t ∧
    m.store.size ≤ w.cell ∧ w.cell < m'.store.size

/-- How an action ends that declares a variable: with the variable in the innermost scope, or
without it, where a scope may have been opened. -/
def Machine.EndsDeclaring {α : Type} (m : Machine) (x : String) (t : Ty) : Ending α → Prop
  | .ok _ m' => m.Around m' ∧ m.DeclaresOne m' x t
  | .error _ m' =>
    m.Around m' ∧ (m'.frame = m.frame ∨ m.frame.scopes = [] ∧ m'.frame = m.frame.pushScope)

/-- What a statement may do to its surroundings: nothing, unless it declares a variable. -/
def Stmt.KeepsSurroundings (s : Stmt) (m : Machine) (ending : Ending Flow) : Prop :=
  match s with
  | .assign ⟨_, some t, x, _⟩ => m.EndsDeclaring x t ending
  | _ => m.Undisturbed ending.machine

theorem Frame.withScope_cases (f : Frame) :
    f.withScope = f ∨ f.scopes = [] ∧ f.withScope = f.pushScope := by
  unfold Frame.withScope
  split
  next empty => exact .inr ⟨empty, rfl⟩
  next => exact .inl rfl

theorem Action.declare_endsDeclaring (x : String) (t : Ty) (v : Value) (p : Position)
    (m : Machine) : m.EndsDeclaring x t (Action.declare x t v p m) := by
  have opened : m.Around { m with frame := m.frame.withScope } := ⟨rfl, rfl, .refl _, .refl _⟩
  rw [Action.declare_run]
  split
  · exact ⟨m.around_refl, .inl rfl⟩
  · split
    · exact ⟨opened, m.frame.withScope_cases⟩
    · split
      next v _ =>
        refine ⟨⟨rfl, rfl, .create _ _, .refl _⟩, _, m.frame.declare_withScope _, rfl, ?_⟩
        dsimp only [Store.directView]
        rw [Store.get_create, Store.size_create]
        exact ⟨rfl, rfl, Nat.le_refl _, Nat.lt_succ_self _⟩
      next => exact ⟨opened, m.frame.withScope_cases⟩

/-- An ending reached from a machine that differs from the first one in its store and sink only. -/
theorem Machine.EndsDeclaring.after {α : Type} {m m₁ : Machine} {x : String} {t : Ty}
    {ending : Ending α} (before : m.Undisturbed m₁) (ends : m₁.EndsDeclaring x t ending) :
    m.EndsDeclaring x t ending := by
  cases ending with
  | ok _ m' =>
    obtain ⟨later, w, added, direct, name, type, fresh, existing⟩ := ends
    rw [before.frame] at added
    exact ⟨before.toAround.trans later, w, added, direct, name, type,
      Nat.le_trans before.store.size fresh, existing⟩
  | error _ m' =>
    obtain ⟨later, frame⟩ := ends
    rw [before.frame] at frame
    exact ⟨before.toAround.trans later, frame⟩

theorem Action.exec_endsDeclaring [Host] (n : Nat) (m : Machine) (value : Expr) (t : Ty) (x : String)
    (p : Position) :
    m.EndsDeclaring x t (Action.exec n (.assign ⟨value, some t, x, p⟩) m) := by
  -- The statement and the assignment in it spend one of the bound each before anything is done.
  match n with
  | 0 => exact ⟨m.around_refl, .inl rfl⟩
  | 1 => exact ⟨m.around_refl, .inl rfl⟩
  | n + 2 =>
    have operand := ((surroundings.lawful n).eval value m trivial)
    change Action.Leads _ _ _ _ at operand
    unfold Action.Leads at operand
    simp only [Action.exec, Action.assign, Action.bind_run]
    cases evaluated : Action.eval n value m with
    | error e m₁ =>
      rw [evaluated] at operand
      exact ⟨operand.toAround, .inl operand.frame⟩
    | ok v m₁ =>
      rw [evaluated] at operand
      -- The value has been evaluated in undisturbed surroundings, so that what declaring does to
      -- the later machine it does to the first one.
      have declared := (Action.declare_endsDeclaring x t v p m₁).after operand.1.undisturbed
      dsimp only
      cases ending : Action.declare x t v p m₁ <;> rw [ending] at declared <;> exact declared

theorem Action.exec_keepsSurroundings [Host] (n : Nat) (s : Stmt) (m : Machine) :
    s.KeepsSurroundings m (Action.exec n s m) := by
  have kept := (surroundings.lawful n).exec s m trivial
  have closed (same : s.mode = .closed) : m.Undisturbed (Ending.machine (Action.exec n s m)) := by
    rw [same] at kept
    exact (Action.Leads.machine kept).undisturbed
  cases s with
  | assign a =>
    obtain ⟨value, declared?, x, p⟩ := a
    cases declared? with
    | some t => exact Action.exec_endsDeclaring n m value t x p
    | none => exact closed rfl
  | run _ _ | giveBack _ _ | branch _ _ _ _ | whileLoop _ _ _ | forLoop _ _ _ _ _ =>
    exact closed rfl

/-- Whatever the host, and whatever an expression, a block, a loop or a call does, and however it
ends, its surroundings are as they were before; and so they are for a statement, but for the
variable that it declares. -/
theorem evaluation_keeps_surroundings [Host] (n : Nat) (m : Machine) :
    (∀ e, m.Undisturbed (Ending.machine (Action.eval n e m))) ∧
    (∀ body, m.Undisturbed (Ending.machine (Action.execBlock n body m))) ∧
    (∀ iterator condition body onIter p, m.Undisturbed
      (Ending.machine (Action.exec n (.forLoop iterator condition body onIter p) m))) ∧
    (∀ c args p, m.Undisturbed (Ending.machine (Action.call n c args p m))) ∧
    ∀ s : Stmt, s.KeepsSurroundings m (Action.exec n s m) := by
  have lawful := surroundings.lawful n
  refine ⟨fun e => ?_, fun body => ?_, fun iterator condition body onIter p => ?_,
    fun c args p => ?_, fun s => Action.exec_keepsSurroundings n s m⟩
  · exact (Action.Leads.machine (lawful.eval e m trivial)).undisturbed
  · exact (Action.Leads.machine (lawful.execBlock body m trivial)).undisturbed
  · exact (Action.Leads.machine
      (lawful.exec (.forLoop iterator condition body onIter p) m trivial)).undisturbed
  · exact (Action.Leads.machine
      (lawful.call c args p m trivial trivial fun _ _ => trivial)).undisturbed

end Rightflow
