import Rightflow.Proofs.Indifference
import Rightflow.Proofs.StoreTyping

/-!
# All that is written

`Activity.writings` lists the calls of `stdout` that are made during an activity, in order of time:
what each one writes and the machine in which it does.  An activity accounts for the whole output of
an action if the texts of its writings make up what the action adds to a sink that takes everything,
and if under a limit the action goes on in the same way up to the first writing that exceeds it, and
ends there (`Accounts`).  Every evaluation is accounted for by the activities that it begins
(`accounting`).

So a run with a limited sink is the run with an unlimited one up to the first text that does not
fit, and nothing happens behind it (`full_sinks_stop_runs`).
-/

namespace Rightflow

/-! ## Writings -/

/-- A call of `stdout`: what is written, where the call stands, and the machine in which it begins
to write. -/
structure Writing where
  text : String
  position : Position
  machine : Machine

namespace Activity

/-- What an activity writes itself. -/
def writes (m : Machine) : Activity → List Writing
  | .native .write (a :: _) p => [⟨(m.store.argValue a).text, p, m⟩]
  | _ => []

/-- All that is written during an activity, from first to last. -/
def writings [Host] : Nat → Activity → Machine → List Writing
  | 0, t, m => t.writes m
  | n + 1, t, m => t.writes m ++ (t.inner n m).flatMap fun s => writings n s.1 s.2

/-- The writings of an activity are those of the calls of `stdout` that it comes to. -/
theorem mem_writings_iff [Host] {n : Nat} {t : Activity} {m : Machine} {w : Writing} :
    w ∈ t.writings n m ↔ ∃ k t' m', Visits n t m k t' m' ∧ w ∈ t'.writes m' := by
  induction n generalizing t m with
  | zero =>
    constructor
    · exact fun member => ⟨0, t, m, .here 0 t m, member⟩
    · rintro ⟨_, _, _, ⟨⟩, member⟩
      exact member
  | succ n inductionHypothesis =>
    simp only [writings, List.mem_append, List.mem_flatMap, inductionHypothesis]
    constructor
    · rintro (own | ⟨s, begun, k, t', m', visited, member⟩)
      · exact ⟨n + 1, t, m, .here _ t m, own⟩
      · exact ⟨k, t', m', .inside begun visited, member⟩
    · rintro ⟨k, t', m', visited, member⟩
      cases visited with
      | here => exact .inl member
      | inside begun visited => exact .inr ⟨_, begun, k, t', m', visited, member⟩

end Activity

/-- Each writing goes on where the one before it has ended, from one text to another. -/
def Continues : String → List Writing → String → Prop
  | s, [], s' => s' = s
  | s, w :: rest, s' => w.machine.sink.written = s ∧ Continues (s ++ w.text) rest s'

/-- The text of a writing would be more than a sink with a limit takes. -/
def Writing.exceeds (limit : Nat) (w : Writing) : Bool :=
  limit < w.machine.sink.written.utf8ByteSize + w.text.utf8ByteSize

namespace Continues

variable {s s' s'' : String} {ws ws' : List Writing} {k : Nat}

theorem append (first : Continues s ws s') (second : Continues s' ws' s'') :
    Continues s (ws ++ ws') s'' := by
  induction ws generalizing s with
  | nil => rwa [show s' = s from first] at second
  | cons w rest inductionHypothesis => exact ⟨first.1, inductionHypothesis first.2⟩

theorem of_append (continues : Continues s (ws ++ ws') s'') :
    ∃ s', Continues s ws s' ∧ Continues s' ws' s'' := by
  induction ws generalizing s with
  | nil => exact ⟨s, rfl, continues⟩
  | cons w rest inductionHypothesis =>
    obtain ⟨s', first, second⟩ := inductionHypothesis continues.2
    exact ⟨s', ⟨continues.1, first⟩, second⟩

/-- What is there in the end is what there was and all that has been written. -/
theorem eq_append (continues : Continues s ws s') : s' = s ++ String.join (ws.map (·.text)) := by
  induction ws generalizing s with
  | nil => simpa [Continues] using continues
  | cons w rest inductionHypothesis =>
    rw [inductionHypothesis continues.2, List.map_cons, String.join_cons, String.append_assoc]

theorem size_le (continues : Continues s ws s') : s.utf8ByteSize ≤ s'.utf8ByteSize := by
  rw [continues.eq_append, String.utf8ByteSize_append]
  exact Nat.le_add_right _ _

/-- What is there in the end fits if none of the writings is too much. -/
theorem fits (continues : Continues s ws s') (room : s.utf8ByteSize ≤ k)
    (none : ∀ w ∈ ws, w.exceeds k = false) : s'.utf8ByteSize ≤ k := by
  induction ws generalizing s with
  | nil => rwa [show s' = s from continues]
  | cons w rest inductionHypothesis =>
    obtain ⟨first, others⟩ := List.forall_mem_cons.mp none
    refine inductionHypothesis continues.2 ?_ others
    rw [String.utf8ByteSize_append, ← continues.1]
    simpa [Writing.exceeds] using first

/-- None of the writings is too much if what is there in the end fits. -/
theorem exceeds_eq_false (continues : Continues s ws s') (fits : s'.utf8ByteSize ≤ k) :
    ∀ w ∈ ws, w.exceeds k = false := by
  induction ws generalizing s with
  | nil => exact nofun
  | cons w rest inductionHypothesis =>
    refine List.forall_mem_cons.mpr ⟨?_, inductionHypothesis continues.2⟩
    have within := continues.2.size_le
    rw [String.utf8ByteSize_append, ← continues.1] at within
    simp only [Writing.exceeds, decide_eq_false_iff_not, Nat.not_lt]
    exact Nat.le_trans within fits

end Continues

/-! ## Limits -/

def Sink.limited (k : Nat) (s : Sink) : Sink := { s with limit? := some k }

namespace Machine

def withSink (s : Sink) (m : Machine) : Machine := { m with sink := s }

/-- The machine with a limit for its sink. -/
def limited (k : Nat) (m : Machine) : Machine := m.withSink (m.sink.limited k)

/-- The machine in other frames. -/
def withFrames (f : Frame) (callers : List Frame) (m : Machine) : Machine :=
  { m with frame := f, callers := callers }

end Machine

/-- How an action ends under a limit, when without one it ends in some way and makes some writings:
in the same way, or at the first of the writings that exceeds the limit, with nothing done behind it
but to take back frames. -/
def Ending.Stops {α : Type} (k : Nat) (ws : List Writing) (free full : Ending α) : Prop :=
  match ws.find? (·.exceeds k) with
  | none => full = free.onMachine (Machine.limited k)
  | some w => ∃ f callers, full =
      .error (.fault (.located w.position (.output .full)))
        ((w.machine.limited k).withFrames f callers)

namespace Action

variable {α β : Type} {m : Machine} {ws : List Writing}

/-- Some writings are all that an action makes, begun in a machine with a sink that takes
everything. -/
structure Obeys (action : Action α) (m : Machine) (ws : List Writing) : Prop where
  continues : Continues m.sink.written ws (Ending.machine (action m)).sink.written
  unlimited : (Ending.machine (action m)).sink.limit? = none
  stops : ∀ k, m.sink.written.utf8ByteSize ≤ k →
    Ending.Stops k ws (action m) (action (m.limited k))

/-- The writings of what is done behind an action that has given a result. -/
def writingsAfter (action : Action α) (m : Machine) (later : α → Machine → List Writing) :
    List Writing :=
  match action m with
  | .ok x m' => later x m'
  | .error _ _ => []

theorem Obeys.bind {action : Action α} {next : α → Action β} {later : α → Machine → List Writing}
    (first : action.Obeys m ws)
    (goesOn : ∀ x m', action m = .ok x m' → m'.sink.limit? = none →
      (next x).Obeys m' (later x m')) :
    (action >>= next).Obeys m (ws ++ action.writingsAfter m later) := by
  obtain ⟨continues, unlimited, stops⟩ := first
  unfold writingsAfter
  cases ending : action m with
  | error e m' =>
    rw [ending] at continues unlimited stops
    have whole : (action >>= next) m = .error e m' := by rw [bind_run, ending]
    refine ⟨?_, ?_, fun k room => ?_⟩
    · rwa [whole, List.append_nil]
    · rwa [whole]
    · have stop := stops k room
      rw [whole, List.append_nil, bind_run]
      unfold Ending.Stops at stop ⊢
      cases found : ws.find? (·.exceeds k) with
      | none => rw [found] at stop; dsimp only at stop ⊢; rw [stop]; rfl
      | some w =>
        rw [found] at stop
        obtain ⟨f, callers, full⟩ := stop
        exact ⟨f, callers, by rw [full]⟩
  | ok x m' =>
    rw [ending] at continues unlimited stops
    have second := goesOn x m' ending unlimited
    have whole : (action >>= next) m = next x m' := by rw [bind_run, ending]
    refine ⟨?_, ?_, fun k room => ?_⟩
    · rw [whole]; exact continues.append second.continues
    · rw [whole]; exact second.unlimited
    · have stop := stops k room
      rw [whole, bind_run]
      unfold Ending.Stops at stop ⊢
      rw [List.find?_append]
      cases found : ws.find? (·.exceeds k) with
      | none =>
        rw [found] at stop
        dsimp only at stop
        rw [stop]
        -- All has fitted so far, so that there is room for what has been written.
        refine second.stops k (continues.fits room fun w member => ?_)
        simpa using List.find?_eq_none.mp found w member
      | some w =>
        rw [found] at stop
        obtain ⟨f, callers, full⟩ := stop
        exact ⟨f, callers, by rw [full]⟩

/-- An action that is run in other surroundings, which are taken back behind it. -/
theorem Obeys.around {action whole : Action α} {enter leave : Machine → Machine}
    (inside : action.Obeys (enter m) ws)
    (run : ∀ m, whole m = Ending.onMachine (action (enter m)) leave)
    (entered : ∀ m, (enter m).sink = m.sink)
    (left : ∀ m, ∃ f callers, leave m = m.withFrames f callers)
    (enterLimited : ∀ k m, enter (m.limited k) = (enter m).limited k)
    (leaveLimited : ∀ k m, leave (m.limited k) = (leave m).limited k) : whole.Obeys m ws := by
  obtain ⟨continues, unlimited, stops⟩ := inside
  have sink : (Ending.machine (whole m)).sink = (Ending.machine (action (enter m))).sink := by
    have same (m : Machine) : (leave m).sink = m.sink := by
      obtain ⟨f, callers, frames⟩ := left m
      rw [frames]
      rfl
    rw [run]
    cases action (enter m) <;> exact same _
  refine ⟨by rw [sink, ← entered]; exact continues, by rw [sink]; exact unlimited, fun k room => ?_⟩
  have stop := stops k (by rwa [entered])
  rw [run, run, enterLimited]
  unfold Ending.Stops at stop ⊢
  cases found : ws.find? (·.exceeds k) with
  | none =>
    rw [found] at stop
    dsimp only at stop ⊢
    rw [stop]
    cases action (enter m) <;> exact congrArg _ (leaveLimited k _)
  | some w =>
    rw [found] at stop
    obtain ⟨f, callers, full⟩ := stop
    obtain ⟨f', callers', frames⟩ := left ((w.machine.limited k).withFrames f callers)
    exact ⟨f', callers', by rw [full]; exact congrArg _ frames⟩

theorem Obeys.inScope {action : Action α} (inside : action.Obeys m.pushScope ws) :
    (Action.inScope action).Obeys m ws :=
  inside.around (fun _ => inScope_run action) (fun _ => rfl) (fun _ => ⟨_, _, rfl⟩)
    (fun _ _ => rfl) fun _ _ => rfl

theorem Obeys.inFrame {action : Action α} {f : Frame} (inside : action.Obeys (m.pushFrame f) ws) :
    (Action.inFrame f action).Obeys m ws :=
  have entered : action.Obeys ((fun m => m.pushFrame f) m) ws := inside
  entered.around (fun _ => inFrame_run f action) (fun _ => rfl) (fun _ => ⟨_, _, rfl⟩)
    (fun _ _ => rfl) fun _ _ => rfl

/-! ## Operations that do not write -/

/-- An action that neither looks at the sink nor changes it. -/
def Quiet (action : Action α) (m : Machine) : Prop :=
  ∀ s, action.CommutesWith (Machine.withSink s) m

theorem Quiet.bind {action : Action α} {next : α → Action β} (first : action.Quiet m)
    (later : ∀ x m', (next x).Quiet m') : (action >>= next).Quiet m :=
  fun s => (first s).bind fun x m' _ => later x m' s

theorem Quiet.sink {action : Action α} (quiet : action.Quiet m) :
    (Ending.machine (action m)).sink = m.sink := by
  have same : action m = Ending.onMachine (action m) (Machine.withSink m.sink) := quiet m.sink
  rw [same]
  cases action m <;> rfl

/-- Nothing is written by an operation that does not look at the sink. -/
theorem Quiet.obeys {action : Action α} (quiet : action.Quiet m)
    (unlimited : m.sink.limit? = none) : action.Obeys m [] := by
  refine ⟨congrArg Sink.written quiet.sink, quiet.sink ▸ unlimited, fun k _ => ?_⟩
  have same : action (m.limited k) =
      Ending.onMachine (action m) (Machine.withSink (m.limited k).sink) := quiet _
  have sinks : (m.limited k).sink = (Ending.machine (action m)).sink.limited k :=
    congrArg (Sink.limited k) quiet.sink.symm
  exact same.trans (Ending.onMachine_congr (congrArg (Machine.withSink · _) sinks))

theorem quiet_pure (x : α) : (pure x : Action α).Quiet m := fun _ => rfl

theorem quiet_fail (p : Position) (cause : Cause) : (fail p cause : Action α).Quiet m :=
  fun _ => rfl

theorem quiet_exhausted : (exhausted : Action α).Quiet m := fun _ => rfl

theorem quiet_attempt (p : Position) (outcome : Except Cause α) : (attempt p outcome).Quiet m :=
  fun _ => attempt_commutesWith p outcome

theorem quiet_name (x : String) (p : Position) : (name x p).Quiet m := by
  intro s
  unfold CommutesWith Machine.withSink
  rw [name_run, name_run]
  dsimp only
  cases m.frame.resolve? x with
  | some w => rfl
  | none => dsimp only; cases m.functions.find? x <;> rfl

theorem quiet_resolve (x : String) (p : Position) : (resolve x p).Quiet m := by
  have looked : (resolve? x).Quiet m := fun _ => rfl
  refine looked.bind fun found m' => ?_
  cases found with
  | some w => exact quiet_pure w
  | none => exact quiet_fail p _

theorem quiet_asCallable (v : Value) (p : Position) : (asCallable v p).Quiet m := by
  cases v with
  | callable c => exact quiet_pure c
  | none | string _ | int _ | flt _ | bool _ => exact quiet_fail p _

theorem quiet_bindFront (callee : Callable) (args : List Arg) : (bindFront callee args).Quiet m :=
  fun _ => rfl

theorem quiet_declare (x : String) (t : Ty) (v : Value) (p : Position) :
    (declare x t v p).Quiet m := by
  intro s
  unfold CommutesWith Machine.withSink
  rw [declare_run, declare_run]
  dsimp only
  by_cases void : t.isVoid = true
  · rw [if_pos void, if_pos void]
    rfl
  · rw [if_neg void, if_neg void]
    by_cases declared : m.frame.withScope.declares x = true
    · rw [if_pos declared, if_pos declared]
      rfl
    · rw [if_neg declared, if_neg declared]
      cases v.cast t <;> rfl

theorem quiet_reassign (x : String) (v : Value) (p : Position) : (reassign x v p).Quiet m := by
  intro s
  unfold CommutesWith Machine.withSink
  rw [reassign_run, reassign_run]
  dsimp only
  cases m.frame.resolve? x with
  | none => rfl
  | some w =>
    dsimp only
    by_cases mutable : w.mutable = true
    · rw [if_pos mutable, if_pos mutable]
      cases v.cast (m.store.get w.cell).type <;> rfl
    · rw [if_neg mutable, if_neg mutable]
      rfl

theorem quiet_bindParam (x : Param) (a : Arg) (p : Position) : (bindParam x a p).Quiet m := by
  intro s
  unfold CommutesWith Machine.withSink
  rw [bindParam_run, bindParam_run]
  dsimp only
  cases m.store.bindArg x a with
  | error cause => rfl
  | ok b => cases b <;> rfl

theorem quiet_bindParams (p : Position) (params : List Param) (args : List Arg) :
    (bindParams p params args).Quiet m := by
  induction params generalizing args m with
  | nil => exact quiet_pure []
  | cons x xs inductionHypothesis =>
    cases args with
    | nil => exact quiet_pure []
    | cons a as =>
      exact (quiet_bindParam x a p).bind fun w m₁ =>
        (inductionHypothesis as).bind fun ws m₂ => quiet_pure _

theorem quiet_bindArgs (p : Position) (params : List Param) (args : List Arg) :
    (do attempt p ((← get).store.bindArgs params args) : Action (List Arg)).Quiet m :=
  fun _ => attempt_commutesWith p (m.store.bindArgs params args)

theorem quiet_incrementArg (a : Arg) (p : Position) : (incrementArg a p).Quiet m := by
  cases a with
  | value v => exact quiet_pure ()
  | view w =>
    intro s
    unfold CommutesWith Machine.withSink
    rw [incrementArg_run, incrementArg_run]
    dsimp only
    cases (m.store.get w.cell).value with
    | int n => dsimp only; cases checked (n.toInt + 1) <;> rfl
    | none | string _ | flt _ | bool _ | callable _ => rfl

/-- Under a limit, a text is written as without one, or refused as a whole. -/
theorem obeys_native_write [Host] {a : Arg} {text : String} (p : Position)
    (value : m.store.argValue a = .string text) (unlimited : m.sink.limit? = none) :
    (native .write [a] p).Obeys m [⟨text, p, m⟩] := by
  have run (s : Sink) : native .write [a] p (m.withSink s) =
      if (s.writeAll [text]).1 then .ok .none (m.withSink (s.writeAll [text]).2)
      else .error (.fault (.located p (.output .full))) (m.withSink (s.writeAll [text]).2) := by
    have written : writeValue (.string text) p (m.withSink s) =
        if (s.writeAll [text]).1 then .ok () (m.withSink (s.writeAll [text]).2)
        else .error (.fault (.located p (.output .full))) (m.withSink (s.writeAll [text]).2) := by
      rw [writeValue_run]
      rfl
    change (writeValue (m.store.argValue a) p >>= fun _ => pure Value.none) (m.withSink s) = _
    rw [value, bind_run, written]
    cases (s.writeAll [text]).1 <;> rfl
  have free : native .write [a] p m =
      .ok .none (m.withSink { m.sink with written := m.sink.written ++ text }) := by
    have written := run m.sink
    rw [Sink.writeAll_of_unlimited unlimited, String.join_cons, String.join_nil,
      String.append_empty] at written
    exact written
  refine ⟨by rw [free]; exact ⟨rfl, rfl⟩, by rw [free]; exact unlimited, fun k room => ?_⟩
  rw [free, Machine.limited, run]
  unfold Ending.Stops
  -- A text is taken whole or not at all.
  by_cases fits : m.sink.written.utf8ByteSize + text.utf8ByteSize ≤ k
  · have taken : (m.sink.limited k).write? text =
        some { m.sink.limited k with written := m.sink.written ++ text } := by
      by_cases empty : text = ""
      · simp [Sink.write?, empty, Sink.limited]
      · simp [Sink.write?, empty, Sink.limited, Sink.fits, fits]
    simp only [Sink.writeAll, taken, List.find?_cons, List.find?_nil, Writing.exceeds,
      Nat.not_lt.mpr fits, decide_false]
    rfl
  · have refused : (m.sink.limited k).write? text = none := by
      have nonempty : text ≠ "" := by
        rintro rfl
        exact fits room
      simp [Sink.write?, nonempty, Sink.limited, Sink.fits, fits]
    simp only [Sink.writeAll, refused, List.find?_cons, Writing.exceeds, Nat.lt_of_not_le fits,
      decide_true]
    exact ⟨m.frame, m.callers, rfl⟩

end Action

/-! ## Accounts -/

section

open Activity Rightflow.Action

variable [Host] {α β : Type} {known : View → Prop} {n : Nat} {m : Machine} {t : Activity}
  {action : Action α} {next : α → Action β} {list : List (Activity × Machine)}
  {later : α → Machine → List (Activity × Machine)}

/-- The writings of some activities are all that an action makes. -/
def Accounts (known : View → Prop) (n : Nat) (action : Action α) (m : Machine)
    (list : List (Activity × Machine)) : Prop :=
  Grant.everything.AllStand known list → m.sink.limit? = none →
    action.Obeys m (list.flatMap fun s => s.1.writings n s.2)

theorem Accounts.bind (first : Accounts known n action m list)
    (goesOn : ∀ x m', action m = .ok x m' → Accounts known n (next x) m' (later x m')) :
    Accounts known n (action >>= next) m (list ++ after action m later) := by
  intro stand unlimited
  obtain ⟨standFirst, standLater⟩ := List.forall_mem_append.mp stand
  have obeys : (action >>= next).Obeys m ((list.flatMap fun s => s.1.writings n s.2) ++
      action.writingsAfter m fun x m' => (later x m').flatMap fun s => s.1.writings n s.2) :=
    (first standFirst unlimited).bind fun x m' ending unlimited' => by
      unfold after at standLater
      rw [ending] at standLater
      exact goesOn x m' ending standLater unlimited'
  rw [List.flatMap_append]
  unfold after
  unfold writingsAfter at obeys
  cases ending : action m <;> rw [ending] at obeys <;> exact obeys

/-- What is done behind an activity begins others. -/
theorem Accounts.goOn (first : Accounts known n action m [(t, m)])
    (goesOn : ∀ x m', action m = .ok x m' → Accounts known n (next x) m' (later x m')) :
    Accounts known n (action >>= next) m ((t, m) :: after action m later) :=
  first.bind goesOn

/-- An operation begins nothing and writes nothing. -/
theorem accounts_of_quiet (quiet : action.Quiet m) : Accounts known n action m [] :=
  fun _ unlimited => quiet.obeys unlimited

/-- What is done in the end begins nothing and writes nothing. -/
theorem Accounts.close (first : Accounts known n action m list)
    (silent : ∀ x m', Accounts known n (next x) m' []) :
    Accounts known n (action >>= next) m list := by
  have whole : Accounts known n (action >>= next) m (list ++ after action m fun _ _ => []) :=
    first.bind fun x m' _ => silent x m'
  have nothing : after action m (fun _ _ => []) = [] := by
    unfold after
    cases action m <;> rfl
  rwa [nothing, List.append_nil] at whole

theorem Accounts.last (first : Accounts known n action m list)
    (quiet : ∀ x m', (next x).Quiet m') : Accounts known n (action >>= next) m list :=
  first.close fun x m' => accounts_of_quiet (quiet x m')

/-- What is done first is an operation. -/
theorem accounts_after (quiet : action.Quiet m)
    (goesOn : ∀ x m', action m = .ok x m' → Accounts known n (next x) m' (later x m')) :
    Accounts known n (action >>= next) m (after action m later) :=
  (accounts_of_quiet quiet).bind goesOn

theorem Accounts.inScope (inside : Accounts known n action m.pushScope list) :
    Accounts known n (Action.inScope action) m list :=
  fun stand unlimited => (inside stand unlimited).inScope

theorem Accounts.inFrame {f : Frame} (inside : Accounts known n action (m.pushFrame f) list) :
    Accounts known n (Action.inFrame f action) m list :=
  fun stand unlimited => (inside stand unlimited).inFrame

theorem accounts_unlessReturned {flow : Flow} {go : Action Flow}
    (goesOn : Accounts known n go m list) :
    Accounts known n
      (match flow with
        | .returned v => pure (.returned v)
        | .normal => go : Action Flow) m (unlessReturned flow list) := by
  cases flow with
  | normal => exact goesOn
  | returned v => exact accounts_of_quiet (quiet_pure _)

/-- An activity accounts for what it does if those that it begins do. -/
theorem Accounts.succ (inside : Accounts known n action m (t.inner n m))
    (silent : t.writes m = []) : Accounts known (n + 1) action m [(t, m)] := by
  intro stand unlimited
  have stands : Grant.everything.Stands known t m := stand _ List.mem_cons_self
  have obeys := inside stands.inner unlimited
  rwa [List.flatMap_cons, List.flatMap_nil, List.append_nil, writings, silent, List.nil_append]

/-! ## Activities -/

/-- The action that an activity is under a bound, with the result that it has itself. -/
inductive Activity.Does (n : Nat) : Activity → {α : Type} → Action α → Prop
  | eval (e : Expr) : Does n (.eval e) (Action.eval n e)
  | callable (e : Expr) : Does n (.callable e) (evalCallable n e)
  | arguments (es : List Expr) : Does n (.arguments es) (evalArgs n es)
  | argument (e : Expr) : Does n (.argument e) (evalArg n e)
  | test (e : Expr) : Does n (.test e) (Action.test n e)
  | call (c : Callable) (args : List Arg) (p : Position) :
      Does n (.call c args p) (Action.call n c args p)
  | native (action : Native) (args : List Arg) (p : Position) :
      Does n (.native action args p) (Action.native action args p)
  | block (body : Block) : Does n (.block body) (execBlock n body)
  | statements (body : List Stmt) : Does n (.statements body) (execAll n body)
  | statement (s : Stmt) : Does n (.statement s) (exec n s)
  | otherwise (o : Otherwise) : Does n (.otherwise o) (execOtherwise n o)
  | assign (a : Assignment) : Does n (.assign a) (Action.assign n a)
  | whileLoop (condition : Expr) (body : Block) :
      Does n (.whileLoop condition body) (execWhile n condition body)
  | loopView (i : Iterator) : Does n (.loopView i) (Action.loopView n i)
  | forLoop (i : Iterator) (condition : Expr) (body : Block) (onIter : Expr) (p : Position) :
      Does n (.forLoop i condition body onIter p) (execFor n i condition body onIter p)
  | rounds (condition : Expr) (body : Block) (c : Callable) (w : View) (p : Position) :
      Does n (.rounds condition body c w p) (iterate n condition body c w p)

/-- Activities account for what they do. -/
def Accounting (known : View → Prop) (n : Nat) : Prop :=
  ∀ (t : Activity) (m : Machine) (α : Type) (action : Action α), t.Does n action →
    Accounts known n action m [(t, m)]

theorem Accounting.of (accounting : Accounting known n) (does : t.Does n action) :
    Accounts known n action m [(t, m)] :=
  accounting t m α action does

variable (inside : Accounting known n)

include inside

theorem accounts_branching {condition : Expr} {yes no : Action α}
    {taken left : Machine → List (Activity × Machine)}
    (yesInside : ∀ m', Accounts known n yes m' (taken m'))
    (noInside : ∀ m', Accounts known n no m' (left m')) :
    Accounts known n (do if ← Action.test n condition then yes else no) m
      (branching n condition m taken left) := by
  refine (inside.of (.test condition)).goOn fun holds m' _ => ?_
  cases holds with
  | true => exact yesInside m'
  | false => exact noInside m'

theorem accounts_eval (e : Expr) :
    Accounts known n (Action.eval (n + 1) e) m ((Activity.eval e).inner n m) := by
  cases e with
  | literal value p => exact accounts_of_quiet (quiet_pure _)
  | name x p => exact accounts_of_quiet (quiet_name x p)
  | unary op operand p => exact (inside.of (.eval operand)).last fun v _ => quiet_attempt p _
  | binary op left right p =>
    have operands (op : BinaryOp) : Accounts known n (do
          let v ← Action.eval n left
          let w ← Action.eval n right
          attempt p (op.apply v w) : Action Value) m
        ((.eval left, m) :: after (Action.eval n left) m fun _ m => [(.eval right, m)]) :=
      (inside.of (.eval left)).goOn fun v m₁ _ =>
        (inside.of (.eval right)).last fun w _ => quiet_attempt p _
    cases op with
    | decorate =>
      exact (inside.of (.callable left)).goOn fun c m₁ _ =>
        (inside.of (.callable right)).last fun d _ => quiet_bindFront d _
    | _ => exact operands _
  | call callee args p =>
    exact (inside.of (.arguments args)).goOn fun as m₁ _ =>
      (inside.of (.callable callee)).goOn fun c m₂ _ => inside.of (.call c as p)
  | bind callee args p =>
    exact (inside.of (.arguments args)).goOn fun as m₁ _ =>
      (inside.of (.callable callee)).last fun c _ => quiet_bindFront c as

theorem accounts_argument (e : Expr) :
    Accounts known n (evalArg (n + 1) e) m ((Activity.argument e).inner n m) := by
  have byValue (e : Expr) (m : Machine) :
      Accounts known n (do return Arg.value (← Action.eval n e) : Action Arg) m [(.eval e, m)] :=
    (inside.of (.eval e)).last fun v _ => quiet_pure _
  cases e with
  | name x p =>
    have looked : (resolve? x).Quiet m := fun _ => rfl
    change Accounts known n (resolve? x >>= _) m (after (resolve? x) m fun found m' =>
      if found.isSome then [] else [(.eval (.name x p), m')])
    refine accounts_after looked fun found m' _ => ?_
    cases found with
    | some w => exact accounts_of_quiet (quiet_pure _)
    | none => exact byValue (.name x p) m'
  | literal _ _ | unary _ _ _ | binary _ _ _ _ | call _ _ _ | bind _ _ _ => exact byValue _ m

theorem accounts_call (c : Callable) (args : List Arg) (p : Position) :
    Accounts known n (Action.call (n + 1) c args p) m ((Activity.call c args p).inner n m) := by
  cases c with
  | bound callee bound stamp => exact inside.of (.call callee (bound ++ args) p)
  | builtin b stamp =>
    refine accounts_after (quiet_attempt p _) fun _ m₁ _ => ?_
    exact accounts_after (quiet_bindArgs p b.params args) fun bound m₂ _ =>
      inside.of (.native b.native bound p)
  | function f =>
    refine accounts_after (quiet_attempt p _) fun _ m₁ _ => ?_
    refine accounts_after (quiet_bindParams p f.params args) fun params m₂ _ => ?_
    exact (inside.of (.block f.body)).inFrame.last fun flow _ => quiet_attempt p _

theorem accounts_statement (s : Stmt) :
    Accounts known n (exec (n + 1) s) m ((Activity.statement s).inner n m) := by
  cases s with
  | assign a => exact (inside.of (.assign a)).last fun _ _ => quiet_pure _
  | run e p => exact (inside.of (.eval e)).last fun _ _ => quiet_pure _
  | giveBack e p => exact (inside.of (.eval e)).last fun _ _ => quiet_pure _
  | branch condition body others p =>
    exact accounts_branching inside (fun _ => inside.of (.block body))
      fun _ => inside.of (.otherwise others)
  | whileLoop condition body p => exact inside.of (.whileLoop condition body)
  | forLoop i condition body onIter p =>
    exact (inside.of (.forLoop i condition body onIter p)).inScope

theorem accounts_otherwise (o : Otherwise) :
    Accounts known n (execOtherwise (n + 1) o) m ((Activity.otherwise o).inner n m) := by
  cases o with
  | nothing => exact accounts_of_quiet (quiet_pure _)
  | elif condition body others p =>
    exact accounts_branching inside (fun _ => inside.of (.block body))
      fun _ => inside.of (.otherwise others)
  | block body p => exact inside.of (.block body)

theorem accounts_statements (body : List Stmt) :
    Accounts known n (execAll (n + 1) body) m ((Activity.statements body).inner n m) := by
  cases body with
  | nil => exact accounts_of_quiet (quiet_pure _)
  | cons s rest =>
    exact (inside.of (.statement s)).goOn fun flow m₁ _ =>
      accounts_unlessReturned (inside.of (.statements rest))

theorem accounts_arguments (es : List Expr) :
    Accounts known n (evalArgs (n + 1) es) m ((Activity.arguments es).inner n m) := by
  cases es with
  | nil => exact accounts_of_quiet (quiet_pure _)
  | cons e es =>
    exact (inside.of (.argument e)).goOn fun a m₁ _ =>
      (inside.of (.arguments es)).last fun _ _ => quiet_pure _

theorem accounts_assign (a : Assignment) :
    Accounts known n (Action.assign (n + 1) a) m ((Activity.assign a).inner n m) := by
  refine (inside.of (.eval a.value)).last fun v m₁ => ?_
  cases a.declared? with
  | some t => exact (quiet_declare a.name t v a.position).bind fun _ _ => quiet_pure _
  | none => exact quiet_reassign a.name v a.position

theorem accounts_loopView (i : Iterator) :
    Accounts known n (Action.loopView (n + 1) i) m ((Activity.loopView i).inner n m) := by
  cases i with
  | assign a => exact (inside.of (.assign a)).last fun _ _ => quiet_resolve _ _
  | existing x p => exact accounts_of_quiet (quiet_resolve x p)

theorem accounts_whileLoop (condition : Expr) (body : Block) :
    Accounts known n (execWhile (n + 1) condition body) m
      ((Activity.whileLoop condition body).inner n m) := by
  refine accounts_branching inside (fun m₁ => ?_) fun _ => accounts_of_quiet (quiet_pure _)
  exact (inside.of (.block body)).goOn fun flow m₂ _ =>
    accounts_unlessReturned (inside.of (.whileLoop condition body))

theorem accounts_rounds (condition : Expr) (body : Block) (c : Callable) (w : View) (p : Position) :
    Accounts known n (iterate (n + 1) condition body c w p) m
      ((Activity.rounds condition body c w p).inner n m) := by
  refine accounts_branching inside (fun m₁ => ?_) fun _ => accounts_of_quiet (quiet_pure _)
  refine (inside.of (.block body)).goOn fun flow m₂ _ => accounts_unlessReturned ?_
  exact (inside.of (.call c [.view w] p)).goOn fun _ m₃ _ =>
    inside.of (.rounds condition body c w p)

end

section

open Activity Rightflow.Action

variable {known : View → Prop} {n : Nat} {m : Machine}

/-- The native functions meet what they are made for, so that only strings are written. -/
theorem accounts_native [Host] (action : Native) (args : List Arg) (p : Position) :
    Accounts known n (Action.native action args p) m [(.native action args p, m)] := by
  intro stand unlimited
  have stands : Grant.everything.Stands known (.native action args p) m :=
    stand _ List.mem_cons_self
  have own : (Activity.native action args p).writings n m =
      (Activity.native action args p).writes m := by
    cases n with
    | zero => rfl
    | succ n => exact List.append_nil _
  rw [List.flatMap_cons, List.flatMap_nil, List.append_nil, own]
  cases action with
  | write =>
    obtain ⟨a, text, rfl, value⟩ := stands.fits
    have own : (Activity.native .write [a] p).writes m = [⟨text, p, m⟩] := by
      simp [writes, value, Value.text, Value.pieces]
    rw [own]
    exact obeys_native_write p value unlimited
  | increment =>
    obtain ⟨a, k, rfl, _, _⟩ := stands.fits
    exact ((quiet_incrementArg a p).bind fun _ _ => quiet_pure _).obeys unlimited
  | foreign code => exact stands.fits.elim

/-- Every evaluation is accounted for by the activity that it is. -/
theorem accounting [Host] (n : Nat) : Accounting known n := by
  induction n with
  | zero =>
    intro t m α action does
    cases does
    case native action args p => exact accounts_native action args p
    all_goals exact fun _ unlimited => quiet_exhausted.obeys unlimited
  | succ n inside =>
    intro t m α action does
    cases does with
    | eval e => exact (accounts_eval inside e).succ rfl
    | callable e =>
      exact ((inside.of (.eval e)).last fun v _ => quiet_asCallable v _).succ rfl
    | arguments es => exact (accounts_arguments inside es).succ rfl
    | argument e => exact (accounts_argument inside e).succ rfl
    | test e => exact ((inside.of (.eval e)).last fun v _ => quiet_attempt _ _).succ rfl
    | call c args p => exact (accounts_call inside c args p).succ rfl
    | native action args p => exact accounts_native action args p
    | block body => exact (inside.of (.statements body)).inScope.succ rfl
    | statements body => exact (accounts_statements inside body).succ rfl
    | statement s => exact (accounts_statement inside s).succ rfl
    | otherwise o => exact (accounts_otherwise inside o).succ rfl
    | assign a => exact (accounts_assign inside a).succ rfl
    | whileLoop condition body => exact (accounts_whileLoop inside condition body).succ rfl
    | loopView i => exact (accounts_loopView inside i).succ rfl
    | forLoop i condition body onIter p =>
      exact Accounts.succ ((inside.of (.loopView i)).goOn fun w m₁ _ =>
        (inside.of (.callable onIter)).goOn fun c m₂ _ =>
          inside.of (.rounds condition body c w p)) rfl
    | rounds condition body c w p => exact (accounts_rounds inside condition body c w p).succ rfl

theorem quiet_define (f : Function) : (define f).Quiet m := by
  intro s
  unfold CommutesWith Machine.withSink
  rw [define_run, define_run]
  dsimp only
  cases m.functions.find? f.name with
  | none => rfl
  | some c => cases c <;> rfl

theorem quiet_load (program : Program) : (load program).Quiet m := by
  induction program generalizing m with
  | nil => exact quiet_pure ()
  | cons f rest inductionHypothesis => exact (quiet_define f).bind fun _ _ => inductionHypothesis

theorem quiet_mainFunction : mainFunction.Quiet m := by
  intro s
  unfold CommutesWith Machine.withSink
  rw [mainFunction_run, mainFunction_run]
  dsimp only
  cases m.functions.find? "main" with
  | none => rfl
  | some c => cases c <;> rfl

theorem quiet_asCode (v : Value) (p : Position) : (asCode v p).Quiet m := by
  cases v with
  | int k => exact quiet_pure k
  | none | string _ | flt _ | bool _ | callable _ => exact quiet_fail p _

/-- Handing on what has been written does not depend on a limit. -/
theorem accounts_flush [Host] (p : Position) : Accounts known n (flush p) m [] := by
  intro _ unlimited
  have kept : Ending.machine (flush p m) = m := by
    rw [flush_run]
    split <;> rfl
  refine ⟨by rw [kept]; rfl, by rwa [kept], fun k _ => ?_⟩
  change flush p (m.limited k) = Ending.onMachine (flush p m) _
  rw [flush_run, flush_run]
  change (if m.sink.flushFails then _ else _ : Ending Unit) = _
  split <;> rfl

/-- A run is accounted for by the call of the main function. -/
theorem accounts_run [Host] (program : Program) :
    Accounts known n (Action.run n program) m ((Request.run program).activities m) := by
  have regrouped : Action.run n program = (do
      let f ← (do Action.load program; mainFunction : Action Function)
      let v ← Action.call n (.function f) [] f.position
      flush f.position
      asCode v f.position) := (bind_assoc _ _ _).symm
  have found : (do Action.load program; mainFunction : Action Function).Quiet m :=
    (quiet_load program).bind fun _ _ => quiet_mainFunction
  rw [regrouped]
  refine accounts_after found fun f m₁ _ => ?_
  refine ((accounting n).of (.call (.function f) [] f.position)).close fun v m₂ => ?_
  exact (accounts_flush f.position).last fun _ _ => quiet_asCode v f.position

end

/-! ## Runs -/

/-- All that is written during a request, from first to last. -/
def Request.writings [Host] (n : Nat) (r : Request) (m : Machine) : List Writing :=
  (r.activities m).flatMap fun s => s.1.writings n s.2

/-- Whether a machine stands in the same frames as another. -/
def Machine.Beside (m m' : Machine) : Prop := m'.frame = m.frame ∧ m'.callers = m.callers

namespace Action

variable {m : Machine}

theorem load_beside (program : Program) : Leads m.Beside (load program) m fun _ _ => True := by
  refine Leads.of_machine ?_ fun _ _ => trivial
  induction program generalizing m with
  | nil => exact ⟨rfl, rfl⟩
  | cons f rest inductionHypothesis =>
    rw [load, bind_run, define_run]
    cases m.functions.find? f.name with
    | none => exact inductionHypothesis
    | some c => cases c <;> exact ⟨rfl, rfl⟩

/-- A run ends in the frames in which it has begun. -/
theorem run_beside [Host] (n : Nat) (program : Program) :
    m.Beside (Ending.machine (run n program m)) := by
  have loaded := load_beside (m := m) program
  refine Leads.machine (Q := fun _ _ => True) (loaded.bind (fun _ => id) fun _ m₁ beside₁ _ => ?_)
  have found : Leads m.Beside mainFunction m₁ fun _ _ => True := by
    refine Leads.of_machine ?_ fun _ _ => trivial
    rw [mainFunction_run]
    split <;> exact beside₁
  refine found.bind (fun _ => id) fun f m₂ beside₂ _ => ?_
  have called : Leads m.Beside (call n (.function f) [] f.position) m₂ fun _ _ => True :=
    ((surroundings.lawful n).call (.function f) [] f.position m₂ trivial trivial nofun).mono
      (fun m₃ kept => ⟨kept.undisturbed.frame.trans beside₂.1, kept.callers.trans beside₂.2⟩)
      fun _ _ _ => trivial
  refine called.bind (fun _ => id) fun v m₃ beside₃ _ => ?_
  have flushed : Leads m.Beside (flush f.position) m₃ fun _ _ => True := by
    refine Leads.of_machine ?_ fun _ _ => trivial
    rw [flush_run]
    split <;> exact beside₃
  refine flushed.bind (fun _ => id) fun _ m₄ beside₄ _ => ?_
  refine Leads.of_machine ?_ fun _ _ => trivial
  cases v <;> exact beside₄

end Action

/-- What a run writes to a sink that takes everything are the texts of the calls of `stdout` that it
makes.  Under a limit it ends in the same way if all of them fit.  Otherwise the first of the calls
that does not fit fails, and the run ends there: nothing has been written but the texts before it,
and but for the frames, which are those of the beginning again, the machine is the one in which that
call began. -/
theorem full_sinks_stop_runs [Host] {known : View → Prop} {m : Machine} {k : Nat}
    (session : Session known m) (unlimited : m.sink.limit? = none)
    (room : m.sink.written.utf8ByteSize ≤ k) (n : Nat) (program : Program) :
    let ws := (Request.run program).writings n m
    let free := Action.run n program m
    let full := Action.run n program (m.limited k)
    let output := (Ending.machine free).sink.written
    output = m.sink.written ++ String.join (ws.map (·.text)) ∧
    (output.utf8ByteSize ≤ k → full = Ending.onMachine free (Machine.limited k)) ∧
    (k < output.utf8ByteSize → ∃ before w rest, ws = before ++ w :: rest ∧
      (∀ v ∈ before, v.exceeds k = false) ∧ w.exceeds k = true ∧
      w.machine.sink.written = m.sink.written ++ String.join (before.map (·.text)) ∧
      full = .error (.fault (.located w.position (.output .full)))
        ((w.machine.limited k).withFrames m.frame m.callers)) := by
  intro ws free full output
  have presides : Grant.everything.Presides known m := session.presides rfl
  have obeys : (Action.run n program).Obeys m ws :=
    accounts_run program (Request.allStand presides (.run program) nofun) unlimited
  obtain ⟨continues, _, stops⟩ := obeys
  have stop : Ending.Stops k ws free full := stops k room
  refine ⟨continues.eq_append, fun fits => ?_, fun tooMuch => ?_⟩
  · -- No text is too long, as each of them is part of an output that fits.
    have none : ws.find? (·.exceeds k) = none :=
      List.find?_eq_none.mpr fun w member => by simp [continues.exceeds_eq_false fits w member]
    rwa [Ending.Stops, none] at stop
  · cases found : ws.find? (·.exceeds k) with
    | none =>
      have fits := continues.fits room fun w member => by
        simpa using List.find?_eq_none.mp found w member
      exact absurd fits (Nat.not_le_of_lt tooMuch)
    | some w =>
      rw [Ending.Stops, found] at stop
      obtain ⟨f, callers, ending⟩ := stop
      obtain ⟨exceeds, before, rest, split, fit⟩ := List.find?_eq_some_iff_append.mp found
      rw [split] at continues
      obtain ⟨s, first, second⟩ := continues.of_append
      -- The frames where it stops are those that the run began with.
      have beside : (m.limited k).Beside (Ending.machine full) := Action.run_beside n program
      rw [ending] at beside
      obtain ⟨rfl, rfl⟩ := beside
      have written : w.machine.sink.written = m.sink.written ++ String.join (before.map (·.text)) :=
        second.1.trans first.eq_append
      exact ⟨before, w, rest, split, fun v member => by simpa using fit v member, exceeds, written,
        ending⟩

/-- `int main { ("ab") -> stdout; ("cd") -> stdout; ret 0; }` -/
def twoTexts : Program :=
  let write (text : String) (line : Nat) : Stmt :=
    .run (.call (.name "stdout" ⟨line, 1⟩) [.literal (.string text) ⟨line, 1⟩] ⟨line, 1⟩) ⟨line, 1⟩
  [{ name := "main"
     ret := .base .int false
     params := []
     body := [write "ab" 2, write "cd" 3, .giveBack (.literal (.int 0) ⟨4, 1⟩) ⟨4, 1⟩]
     position := ⟨1, 1⟩ }]

/-- Three bytes take the first of two texts of two bytes each, and nothing of the second one. -/
theorem second_text_does_not_fit :
    ∃ w : Writing, w.text = "cd" ∧ w.machine.sink.written = "ab" ∧
      Action.run 9 twoTexts ((Machine.ofBuiltins Builtin.standard).limited 3) =
        .error (.fault (.located w.position (.output .full)))
          ((w.machine.limited 3).withFrames {} []) := by
  obtain ⟨_, _, stopped⟩ := full_sinks_stop_runs (k := 3) (.begin {}) rfl (by decide) 9 twoTexts
  obtain ⟨before, w, rest, split, fit, exceeds, written, ending⟩ := stopped (by decide)
  have texts : (before ++ w :: rest).map (·.text) = ["ab", "cd"] := by rw [← split]; rfl
  rw [Writing.exceeds, written] at exceeds
  -- The first text fits, and there is none behind the second.
  rcases before with _ | ⟨v, _ | ⟨v', more⟩⟩
  · have text : w.text = "ab" := (List.cons.inj texts).1
    rw [text] at exceeds
    exact absurd exceeds (by decide)
  · obtain ⟨first, second, _⟩ : v.text = "ab" ∧ w.text = "cd" ∧ rest = [] := by simpa using texts
    rw [List.map_cons, first] at written
    exact ⟨w, second, written, ending⟩
  · simp at texts

end Rightflow
