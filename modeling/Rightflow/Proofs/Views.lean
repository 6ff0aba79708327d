import Rightflow.Proofs.CallerIndependence
import Rightflow.Proofs.Surroundings

/-!
# Only the views of a frame count

What may be named in a frame are its views, and in which scope a view stands matters to nothing but
a declaration in that scope.  So whatever closes its scopes again does the same in two frames with
the same views, and what declares does so if the innermost scopes are the same too
(`Mode.Exchanges`).  This is the discipline `seeingViews`.

In particular an empty scope around an expression, a block or a call makes no difference
(`SeesViews.pushScope`).
-/

namespace Rightflow

/-! ## Frames that may be exchanged -/

/-- The frame in which an action of some mode is begun may be changed in this way: to one with the
same views, or, as long as there is a scope to declare in, to one with the same views outside it. -/
inductive Mode.Exchanges : Mode → Frame → (Frame → Frame) → Prop
  | closed {f : Frame} (other : Frame) (same : other.views = f.views) :
      Exchanges .closed f fun _ => other
  | declaring {f : Frame} (params : List View) (outer : List (List View))
      (opened : f.scopes ≠ [])
      (same : outer.flatten ++ params = f.scopes.tail.flatten ++ f.params) :
      Exchanges .declaring f fun g => { params, scopes := g.innermost :: outer }

namespace Mode.Exchanges

variable {mode : Mode} {f f' : Frame} {change : Frame → Frame}

theorem views (exchanges : mode.Exchanges f change) : (change f).views = f.views := by
  cases exchanges with
  | closed other same => exact same
  | declaring params outer opened same =>
    obtain ⟨scope, scopes, split⟩ := List.exists_cons_of_ne_nil opened
    simp only [split, List.tail_cons] at same
    simp [Frame.views, Frame.innermost, split, same]

theorem resolve? (exchanges : mode.Exchanges f change) (x : String) :
    (change f).resolve? x = f.resolve? x := by
  rw [Frame.resolve?, Frame.resolve?, exchanges.views]

/-- A frame may be changed in the same way when what the mode allows has been done to it. -/
theorem allowed (exchanges : mode.Exchanges f change) (allows : mode.Allows f f') :
    mode.Exchanges f' change := by
  cases exchanges with
  | closed other same =>
    rw [show f' = f from allows]
    exact .closed other same
  | declaring params outer opened same =>
    rcases allows with rfl | ⟨added, rfl⟩
    · exact .declaring params outer opened same
    · exact .declaring params outer (List.cons_ne_nil _ _) same

/-- What may be done to a frame before a declaration, may be done once for all if nothing is
declared. -/
theorem close (exchanges : mode.Exchanges f change) :
    Mode.closed.Exchanges f fun _ => change f :=
  .closed _ exchanges.views

theorem pushScope {other : Frame} (same : other.views = f.views) :
    Mode.declaring.Exchanges f.pushScope
      fun g => { params := other.params, scopes := g.innermost :: other.scopes } :=
  .declaring other.params other.scopes (List.cons_ne_nil _ _) same

end Mode.Exchanges

/-! ## The discipline -/

namespace Action

variable {α β : Type} {mode : Mode} {action : Action α} {m : Machine} {Q : α → Store → Prop}

/-- An action that leaves its surroundings alone, and does the same when the frame in which it is
begun is exchanged, and whoever the callers are. -/
structure SeesViews (mode : Mode) (action : Action α) (m : Machine) (Q : α → Store → Prop) :
    Prop where
  kept : Leads (m.Keeps mode) action m Q
  commutes : ∀ change callers, mode.Exchanges m.frame change → action.Commutes change callers m

namespace SeesViews

theorem bind {next : α → Action β} {Q' : β → Store → Prop} (first : SeesViews mode action m Q)
    (later : ∀ x m', Q x m'.store → SeesViews mode (next x) m' Q') :
    SeesViews mode (action >>= next) m Q' where
  kept := surroundings.sequence first.kept fun x m' _ _ result => (later x m' result).kept
  commutes change callers exchanges := by
    refine (first.commutes change callers exchanges).bind fun x m' ending => ?_
    obtain ⟨kept, result⟩ := first.kept.ok ending
    exact (later x m' result).commutes change callers (exchanges.allowed kept.frame)

/-- What closes its scopes again leaves the frame behind that it has found. -/
theorem close (closed : SeesViews .closed action m Q) : SeesViews mode action m Q where
  kept := surroundings.close closed.kept
  commutes change callers exchanges := by
    have same := closed.commutes _ callers exchanges.close
    unfold Commutes at same ⊢
    change action (m.reframe (fun _ => change m.frame) callers) = _
    rw [same]
    have frame : (Ending.machine (action m)).frame = m.frame := closed.kept.machine.frame
    refine Ending.onMachine_congr ?_
    rw [Machine.reframe, Machine.reframe, frame]

theorem inScope (body : SeesViews .declaring action m.pushScope Q) :
    SeesViews .closed (Action.inScope action) m Q where
  kept := surroundings.inScope trivial fun _ => body.kept
  commutes change callers exchanges := by
    obtain ⟨other, same⟩ := exchanges
    have commutes := body.commutes _ callers (.pushScope same)
    change action (m.reframe (fun _ => other) callers).pushScope = _ at commutes
    unfold Commutes
    rw [inScope_run, inScope_run, commutes]
    cases action m.pushScope <;> rfl

theorem inFrame {f : Frame} (body : SeesViews .closed action (m.pushFrame f) Q) :
    SeesViews .closed (Action.inFrame f action) m Q where
  kept := leads_inFrame (body.kept.mono (fun _ kept => kept.popFrame) fun _ _ => id)
  commutes change callers exchanges := by
    obtain ⟨other, same⟩ := exchanges
    -- The frame that is exchanged is a caller while the body runs.
    have commutes := body.commutes (fun _ => f) (other :: callers) (.closed f rfl)
    change action ((m.reframe (fun _ => other) callers).pushFrame f) = _ at commutes
    unfold Commutes
    rw [inFrame_run, inFrame_run, commutes]
    cases action (m.pushFrame f) <;> rfl

end SeesViews

theorem name_seesViews (x : String) (p : Position) :
    SeesViews .closed (name x p) m fun _ _ => True where
  kept := surroundings.name x p trivial
  commutes change callers exchanges := by
    unfold Commutes
    rw [name_run, name_run, Machine.reframe_frame, exchanges.resolve?]
    cases m.frame.resolve? x with
    | some w => rfl
    | none =>
      rw [Machine.reframe_functions]
      dsimp only
      cases m.functions.find? x <;> rfl

theorem resolve?_seesViews (x : String) {Q : Option View → Store → Prop} (any : ∀ w? s, Q w? s) :
    SeesViews .closed (Action.resolve? x) m Q where
  kept := ⟨m.keeps_refl _, any _ _⟩
  commutes change callers exchanges := by
    unfold Commutes
    rw [resolve?_run, resolve?_run, Machine.reframe_frame, exchanges.resolve?]
    rfl

theorem reassign_seesViews (x : String) (v : Value) (p : Position) :
    SeesViews .closed (reassign x v p) m fun _ _ => True where
  kept := surroundings.reassign x p trivial trivial
  commutes change callers exchanges := by
    unfold Commutes
    rw [reassign_run, reassign_run, Machine.reframe_frame, exchanges.resolve?]
    cases m.frame.resolve? x with
    | none => rfl
    | some w =>
      rw [Machine.reframe_store]
      dsimp only
      split
      · cases v.cast (m.store.get w.cell).type <;> rfl
      · rfl

theorem declare_seesViews (x : String) (t : Ty) (v : Value) (p : Position) :
    SeesViews .declaring (declare x t v p) m fun _ _ => True where
  kept := surroundings.declare x t p trivial trivial
  commutes change callers exchanges := by
    obtain _ | ⟨params, outer, opened, same⟩ := exchanges
    have opened' : m.frame.withScope = m.frame := if_neg opened
    unfold Commutes
    rw [declare_run, declare_run, Machine.reframe_frame, opened']
    split
    · rfl
    · -- Whether the name is free is a matter of the innermost scope.
      change (if m.frame.declares x then _ else _) = _
      split
      · rfl
      · rw [Machine.reframe_store]
        cases v.cast t <;> rfl

end Action

open Rightflow.Action in
/-- Actions to which only the views of their frame matter. -/
def seeingViews [Host] : Discipline where
  toReliance := .none
  Sat mode _ action m Q := SeesViews mode action m Q
  result _ known := ⟨⟨Machine.keeps_refl _ _, known⟩, fun _ _ _ => rfl⟩
  halt _ _ := ⟨Machine.keeps_refl _ _, fun _ _ _ => rfl⟩
  sequence first later := first.bind fun x m' result => later x m' trivial trivial result
  close closed := closed.close
  name x p _ := name_seesViews x p
  resolve? x _ := resolve?_seesViews x fun _ _ _ _ => trivial
  bindFront good callee args := ⟨surroundings.bindFront good callee args, fun _ _ _ => rfl⟩
  callBuiltin {_ b _ args} p _ _ _ :=
    ⟨Leads.of_machine (callBuiltin_keeps b args p) fun _ _ => trivial, fun _ _ _ =>
      callBuiltin_commutes b args p⟩
  declare {_ v} x t p _ _ := declare_seesViews x t v p
  reassign {_ v} x p _ _ := reassign_seesViews x v p
  inScope _ body := (body trivial).inScope
  enter {m _ _ _ params args} p _ _ kept :=
    have bound : SeesViews .closed (bindParams p params args) m fun _ _ => True :=
      ⟨bindParams_keeps p params args, fun _ _ _ => bindParams_commutes p params args⟩
    bound.bind fun views m₁ _ => (kept (m₁.pushFrame { params := views }) trivial).inFrame

namespace Action

variable {α : Type} {action : Action α} {m : Machine} {Q : α → Store → Prop}

/-- An empty scope makes no difference to what closes its own. -/
theorem SeesViews.pushScope (sees : SeesViews .closed action m Q) :
    action m.pushScope = Ending.onMachine (action m) Machine.pushScope := by
  have same := sees.commutes _ m.callers (.closed m.frame.pushScope rfl)
  change action m.pushScope = _ at same
  rw [same]
  have kept := sees.kept.machine
  have frame : (Ending.machine (action m)).frame = m.frame := kept.frame
  refine Ending.onMachine_congr ?_
  rw [Machine.reframe, Machine.pushScope, frame, kept.callers]

end Action

end Rightflow
