import Rightflow.Proofs.Discipline
import Rightflow.Proofs.Indifference

/-!
# Calls do not see their callers

A function body runs in a frame of its own, and names are looked up in the current frame only.  So
the names of the caller, and of all the callers before, have no part in what a call does:
`call_ignores_frames` runs a call from two machines that have the functions, the store and the sink
in common and nothing else.  A native function of the host is no exception: the host is not given
any frames.

Both runs are compared through `Machine.reframe`, which puts other frames into a machine.  That an
evaluation commutes with a change of the callers is the discipline `ignoringCallers`.  The frame in
which an expression is evaluated does matter to it, and stays; but a call opens another one, and the
old one is a caller then.
-/

namespace Rightflow

/-- The machine with the current frame changed and with other callers. -/
def Machine.reframe (frame : Frame → Frame) (callers : List Frame) (m : Machine) : Machine :=
  { m with frame := frame m.frame, callers := callers }

namespace Machine

variable (m : Machine) (frame : Frame → Frame) (callers : List Frame)

theorem reframe_frame : (m.reframe frame callers).frame = frame m.frame := rfl

theorem reframe_functions : (m.reframe frame callers).functions = m.functions := rfl

theorem reframe_store : (m.reframe frame callers).store = m.store := rfl

theorem unseen_reframe : Unseen (reframe frame callers) :=
  ⟨fun _ => rfl, fun _ => rfl, fun _ _ => rfl, fun _ _ => rfl⟩

end Machine

namespace Action

variable {α β : Type}

/-- Whether an action does the same, begun in a machine, when frames are exchanged. -/
def Commutes (action : Action α) (frame : Frame → Frame) (callers : List Frame) (m : Machine) :
    Prop :=
  action (m.reframe frame callers) = Ending.onMachine (action m) (Machine.reframe frame callers)

theorem Commutes.bind {action : Action α} {next : α → Action β} {frame : Frame → Frame}
    {callers : List Frame} {m : Machine} (first : action.Commutes frame callers m)
    (later : ∀ x m', action m = .ok x m' → (next x).Commutes frame callers m') :
    (action >>= next).Commutes frame callers m :=
  CommutesWith.bind first later

theorem attempt_commutes (p : Position) (outcome : Except Cause α) (frame : Frame → Frame)
    (callers : List Frame) (m : Machine) : (attempt p outcome).Commutes frame callers m :=
  attempt_commutesWith p outcome

section

variable {frame : Frame → Frame} {callers : List Frame} {m : Machine}

theorem bindParams_commutes (p : Position) (params : List Param) (args : List Arg) :
    (bindParams p params args).Commutes frame callers m :=
  bindParams_commutesWith (Machine.unseen_reframe frame callers) p params args

theorem callBuiltin_commutes [Host] (b : Builtin) (args : List Arg) (p : Position) :
    (callBuiltin b args p).Commutes frame callers m :=
  callBuiltin_commutesWith (Machine.unseen_reframe frame callers) b args p

end

/-! ## Other callers -/

/-- An action that does the same, begun in a machine, whoever the callers are. -/
structure IgnoresCallers (action : Action α) (m : Machine) (Q : α → Store → Prop) : Prop where
  commutes : ∀ callers, action.Commutes id callers m
  known : ∀ x m', action m = .ok x m' → Q x m'.store

theorem IgnoresCallers.of_commutes {action : Action α} {m : Machine} {Q : α → Store → Prop}
    (commutes : ∀ callers, action.Commutes id callers m) (any : ∀ x s, Q x s) :
    IgnoresCallers action m Q :=
  ⟨commutes, fun x _ _ => any x _⟩

theorem IgnoresCallers.bind {action : Action α} {next : α → Action β} {m : Machine}
    {P : α → Store → Prop} {Q : β → Store → Prop} (first : IgnoresCallers action m P)
    (later : ∀ x m', P x m'.store → IgnoresCallers (next x) m' Q) :
    IgnoresCallers (action >>= next) m Q where
  commutes callers := (first.commutes callers).bind fun x m' ending =>
    (later x m' (first.known x m' ending)).commutes callers
  known y m'' ending := by
    rw [bind_run] at ending
    cases evaluated : action m with
    | ok x m' =>
      rw [evaluated] at ending
      exact (later x m' (first.known x m' evaluated)).known y m'' ending
    | error e m' =>
      rw [evaluated] at ending
      cases ending

theorem name_commutes (x : String) (p : Position) (callers : List Frame) (m : Machine) :
    (name x p).Commutes id callers m := by
  unfold Commutes
  rw [name_run, name_run, Machine.reframe_frame, Machine.reframe_functions, id_eq]
  cases m.frame.resolve? x with
  | some w => rfl
  | none => dsimp only; cases m.functions.find? x <;> rfl

theorem declare_commutes (x : String) (t : Ty) (v : Value) (p : Position) (callers : List Frame)
    (m : Machine) : (declare x t v p).Commutes id callers m := by
  unfold Commutes
  rw [declare_run, declare_run, Machine.reframe_frame, id_eq]
  split
  · rfl
  · split
    · rfl
    · cases v.cast t <;> rfl

theorem reassign_commutes (x : String) (v : Value) (p : Position) (callers : List Frame)
    (m : Machine) : (reassign x v p).Commutes id callers m := by
  unfold Commutes
  rw [reassign_run, reassign_run, Machine.reframe_frame, Machine.reframe_store, id_eq]
  cases m.frame.resolve? x with
  | none => rfl
  | some w =>
    dsimp only
    split
    · cases v.cast (m.store.get w.cell).type <;> rfl
    · rfl

theorem inScope_ignoresCallers {action : Action α} {m : Machine} {Q : α → Store → Prop}
    (body : IgnoresCallers action m.pushScope Q) : IgnoresCallers (inScope action) m Q where
  commutes callers := by
    have same : action (m.reframe id callers).pushScope = _ := body.commutes callers
    unfold Commutes
    rw [inScope_run, inScope_run, same]
    cases action m.pushScope <;> rfl
  known x m' ending := by
    rw [inScope_run] at ending
    cases ran : action m.pushScope with
    | ok y m'' =>
      rw [ran] at ending
      cases ending
      have known := body.known x m'' ran
      exact known
    | error e m'' =>
      rw [ran] at ending
      cases ending

/-- The frame of the caller is a caller itself once the body runs, and may be exchanged too. -/
theorem inFrame_commutes {body : Action α} {f : Frame} {m : Machine} {Q : α → Store → Prop}
    (kept : IgnoresCallers body (m.pushFrame f) Q) (other : Frame) (callers : List Frame) :
    (inFrame f body).Commutes (fun _ => other) callers m := by
  have same : body ((m.reframe (fun _ => other) callers).pushFrame f) = _ :=
    kept.commutes (other :: callers)
  unfold Commutes
  rw [inFrame_run, inFrame_run, same]
  cases body (m.pushFrame f) <;> rfl

/-- The frame of the caller comes back when the body has run. -/
theorem inFrame_restores {body : Action α} {f : Frame} {m : Machine} {Q : α → Store → Prop}
    (kept : IgnoresCallers body (m.pushFrame f) Q) :
    inFrame f body m =
      Ending.onMachine (inFrame f body m) (Machine.reframe (fun _ => m.frame) m.callers) :=
  inFrame_commutes kept m.frame m.callers

theorem inFrame_ignoresCallers {body : Action α} {f : Frame} {m : Machine} {Q : α → Store → Prop}
    (kept : IgnoresCallers body (m.pushFrame f) Q) : IgnoresCallers (inFrame f body) m Q where
  commutes callers := by
    -- The body is run with the same frame and other callers, which leaves that frame as it was.
    have same := inFrame_commutes kept m.frame callers
    unfold Commutes at same ⊢
    change inFrame f body (m.reframe id callers) = _ at same
    rw [same, inFrame_restores kept]
    cases inFrame f body m <;> rfl
  known x m' ending := by
    rw [inFrame_run] at ending
    cases ran : body (m.pushFrame f) with
    | ok y m'' =>
      rw [ran] at ending
      cases ending
      have known := kept.known x m'' ran
      exact known
    | error e m'' =>
      rw [ran] at ending
      cases ending

end Action

open Rightflow.Action in
/-- Actions that do the same whoever the callers are. -/
def ignoringCallers [Host] : Discipline where
  toReliance := .none
  Sat _ _ action m Q := IgnoresCallers action m Q
  result _ known := ⟨fun _ => rfl, fun _ _ ending => by cases ending; exact known⟩
  halt _ _ := ⟨fun _ => rfl, fun _ _ ending => by cases ending⟩
  sequence kept later := kept.bind fun x m' known => later x m' trivial trivial known
  close kept := kept
  name {m} x p _ := .of_commutes (fun callers => name_commutes x p callers m) fun _ _ => trivial
  resolve? _ _ := .of_commutes (fun _ => rfl) fun _ _ _ _ => trivial
  bindFront _ _ _ := .of_commutes (fun _ => rfl) fun _ _ => trivial
  callBuiltin {_ b _ args} p _ _ _ :=
    .of_commutes (fun _ => callBuiltin_commutes b args p) fun _ _ => trivial
  declare {m v} x t p _ _ :=
    .of_commutes (fun callers => declare_commutes x t v p callers m) fun _ _ => trivial
  reassign {m v} x p _ _ :=
    .of_commutes (fun callers => reassign_commutes x v p callers m) fun _ _ => trivial
  inScope _ body := inScope_ignoresCallers (body trivial)
  enter {m _ body Q params args} p _ _ kept :=
    (IgnoresCallers.of_commutes (Q := fun _ _ => True)
      (fun _ => bindParams_commutes p params args) fun _ _ => trivial).bind fun views m₁ _ =>
      inFrame_ignoresCallers (kept (m₁.pushFrame { params := views }) trivial)

/-! ## Other frames -/

theorem Action.call_commutes [Host] (n : Nat) (c : Callable) (args : List Arg) (p : Position)
    (f : Frame) (callers : List Frame) (m : Machine) :
    (Action.call n c args p).Commutes (fun _ => f) callers m := by
  induction n generalizing c args with
  | zero => rfl
  | succ n inductionHypothesis =>
    cases c with
    | builtin b stamp => exact callBuiltin_commutes b args p
    | bound callee bound stamp => exact inductionHypothesis callee (bound ++ args)
    | function function =>
      simp only [Action.call]
      refine (attempt_commutes p _ _ callers m).bind fun _ m₁ _ => ?_
      refine (bindParams_commutes p function.params args).bind fun views m₂ _ => ?_
      -- The body sees its own frame only.  The frame that is exchanged has become a caller.
      have body := (ignoringCallers.lawful n).execBlock function.body
        (m₂.pushFrame { params := views }) trivial
      refine (inFrame_commutes body f callers).bind fun flow m₃ _ => ?_
      exact attempt_commutes p _ _ callers m₃

/-- Two machines that have all in common but their frames. -/
structure Machine.SameButFrames (m₁ m₂ : Machine) : Prop where
  functions : m₁.functions = m₂.functions
  store : m₁.store = m₂.store
  sink : m₁.sink = m₂.sink

theorem Machine.SameButFrames.reframe {m₁ m₂ : Machine} (same : m₁.SameButFrames m₂) :
    m₂ = m₁.reframe (fun _ => m₂.frame) m₂.callers := by
  obtain ⟨functions, store, sink⟩ := same
  unfold Machine.reframe
  rw [functions, store, sink]

/-- On every host, a call from two machines that have the functions, the store and the sink in
common has the same result, or fails in the same way; it leaves the same store and sink behind, and
to each machine its own frames. -/
theorem call_ignores_frames [Host] (n : Nat) (c : Callable) (args : List Arg) (p : Position)
    {m₁ m₂ : Machine} (same : m₁.SameButFrames m₂) :
    Ending.result (Action.call n c args p m₁) = Ending.result (Action.call n c args p m₂) ∧
    (Ending.machine (Action.call n c args p m₁)).SameButFrames
      (Ending.machine (Action.call n c args p m₂)) ∧
    (Ending.machine (Action.call n c args p m₁)).frame = m₁.frame ∧
    (Ending.machine (Action.call n c args p m₁)).callers = m₁.callers ∧
    (Ending.machine (Action.call n c args p m₂)).frame = m₂.frame ∧
    (Ending.machine (Action.call n c args p m₂)).callers = m₂.callers := by
  -- Both runs are the one from `m₁`, each with its own frames put into the ending.
  have own : Action.call n c args p m₁ = Ending.onMachine (Action.call n c args p m₁)
      (Machine.reframe (fun _ => m₁.frame) m₁.callers) :=
    Action.call_commutes n c args p m₁.frame m₁.callers m₁
  have other : Action.call n c args p m₂ = Ending.onMachine (Action.call n c args p m₁)
      (Machine.reframe (fun _ => m₂.frame) m₂.callers) := by
    have commutes := Action.call_commutes n c args p m₂.frame m₂.callers m₁
    unfold Action.Commutes at commutes
    rwa [← same.reframe] at commutes
  rw [other, own]
  cases Action.call n c args p m₁ <;> exact ⟨rfl, ⟨rfl, rfl, rfl⟩, rfl, rfl, rfl, rfl⟩

/-- A function that returns the value of a name which is none of its own. -/
def reader : Function :=
  ⟨"reader", .base .int false, [], [.giveBack (.name "x" .start) .start], .start⟩

/-- A variable of the caller that has the name does not make the function succeed. -/
theorem reader_ignores_caller :
    let store : Store := { cells := #[⟨"x", .base .int false, .int 1⟩] }
    let m₁ : Machine := { store, frame := { scopes := [[⟨0, "x", false⟩]] } }
    let m₂ : Machine := { store, callers := [{ params := [⟨0, "y", false⟩] }] }
    m₁.SameButFrames m₂ ∧
    Ending.result (Action.call 9 (.function reader) [] .start m₁) =
      Ending.result (Action.call 9 (.function reader) [] .start m₂) ∧
    Ending.result (Action.call 9 (.function reader) [] .start m₂) =
      .error (.fault (.located .start (.unknownName "x"))) :=
  ⟨⟨rfl, rfl, rfl⟩, (call_ignores_frames 9 (.function reader) [] .start ⟨rfl, rfl, rfl⟩).1, by rfl⟩

end Rightflow
