import Rightflow.Proofs.Indifference
import Rightflow.Proofs.Reached

/-!
# The order of definitions

Loading a program adds its functions one after the other, up to the first one whose name is taken.
So all of them are added exactly if their names are distinct and new.

An evaluation asks the table of functions for the callable of a name and for nothing else.  Two
tables that answer alike are so the same to it, which is the discipline `askingOnly`; and the tables
that are filled with the functions of a program in one order and in another one do answer alike.
-/

namespace Rightflow

/-! ## Filling a table -/

/-- What is said of a function whose name a callable has already. -/
def Callable.redefinition (taken : Callable) (name : String) : Cause :=
  match taken with
  | .builtin .. => .builtinRedefined name
  | .function _ | .bound .. => .alreadyDefined name

theorem Callable.redefinition_builtin_iff (taken : Callable) {name : String} :
    (∃ x, taken.redefinition name = .builtinRedefined x) ↔ ∃ b stamp, taken = .builtin b stamp := by
  cases taken with
  | builtin b stamp => exact ⟨fun _ => ⟨b, stamp, rfl⟩, fun _ => ⟨name, rfl⟩⟩
  | function _ | bound _ _ _ =>
    exact ⟨fun ⟨_, same⟩ => (nomatch same), fun ⟨_, _, same⟩ => nomatch same⟩

namespace FunctionTable

variable {t : FunctionTable} {program program' : Program} {x : String}

/-- The table with the functions of a program added, one after the other. -/
def add (t : FunctionTable) (program : Program) : FunctionTable :=
  program.foldl (fun t f => t.insert f.name (.function f)) t

/-- The functions of a program can be added: their names are distinct, and none of them is taken. -/
def Admits (t : FunctionTable) (program : Program) : Prop :=
  (program.map (·.name)).Nodup ∧ ∀ f ∈ program, t.find? f.name = none

/-- Two tables give the same callable to every name. -/
def Same (t t' : FunctionTable) : Prop := ∀ x, t.find? x = t'.find? x

theorem admits_cons {f : Function} :
    t.Admits (f :: program) ↔
      t.find? f.name = none ∧ (t.insert f.name (.function f)).Admits program := by
  simp only [Admits, List.map_cons, List.nodup_cons, List.mem_map, not_exists, not_and,
    List.forall_mem_cons, find?_insert]
  constructor
  · rintro ⟨⟨other, distinct⟩, new, allNew⟩
    refine ⟨new, distinct, fun g member => ?_⟩
    rw [if_neg (other g member)]
    exact allNew g member
  · rintro ⟨new, distinct, allNew⟩
    refine ⟨⟨fun g member same => ?_, distinct⟩, new, fun g member => ?_⟩
    · have absent := allNew g member
      rw [if_pos same] at absent
      cases absent
    · have absent := allNew g member
      split at absent
      · cases absent
      · exact absent

/-- Either all functions of a program can be added, or one of them is the first that cannot. -/
theorem admits_or_stops (t : FunctionTable) (program : Program) :
    t.Admits program ∨ ∃ before f after taken, program = before ++ f :: after ∧
      t.Admits before ∧ (t.add before).find? f.name = some taken := by
  induction program generalizing t with
  | nil => exact .inl ⟨List.nodup_nil, nofun⟩
  | cons f rest inductionHypothesis =>
    cases found : t.find? f.name with
    | some taken => exact .inr ⟨[], f, rest, taken, rfl, ⟨List.nodup_nil, nofun⟩, found⟩
    | none =>
      obtain all | ⟨before, g, after, taken, rfl, some, found'⟩ :=
        inductionHypothesis (t.insert f.name (.function f))
      · exact .inl (admits_cons.2 ⟨found, all⟩)
      · exact .inr ⟨f :: before, g, after, taken, rfl, admits_cons.2 ⟨found, some⟩, found'⟩

theorem find?_add_of_ne (other : ∀ f ∈ program, x ≠ f.name) :
    (t.add program).find? x = t.find? x := by
  induction program generalizing t with
  | nil => rfl
  | cons f rest inductionHypothesis =>
    obtain ⟨first, others⟩ := List.forall_mem_cons.1 other
    have later := inductionHypothesis (t := t.insert f.name (.function f)) others
    rwa [find?_insert, if_neg first] at later

theorem find?_add_of_mem (distinct : (program.map (·.name)).Nodup) {f : Function}
    (member : f ∈ program) : (t.add program).find? f.name = some (.function f) := by
  induction program generalizing t with
  | nil => cases member
  | cons g rest inductionHypothesis =>
    obtain ⟨other, distinct'⟩ := List.nodup_cons.1 distinct
    obtain rfl | later := List.mem_cons.1 member
    · -- The functions that are added later have other names.
      have others : ∀ g ∈ rest, f.name ≠ g.name :=
        fun g member same => other (List.mem_map.2 ⟨g, member, same.symm⟩)
      have kept := find?_add_of_ne (t := t.insert f.name (.function f)) others
      rwa [find?_insert, if_pos rfl] at kept
    · exact inductionHypothesis distinct' later

/-- The order in which functions of distinct names are added makes no difference. -/
theorem same_add_of_perm (distinct : (program.map (·.name)).Nodup) (perm : program.Perm program') :
    (t.add program').Same (t.add program) := by
  intro x
  have distinct' : (program'.map (·.name)).Nodup := (perm.map _).nodup_iff.1 distinct
  by_cases defined : ∃ f ∈ program, x = f.name
  · obtain ⟨f, member, rfl⟩ := defined
    rw [find?_add_of_mem distinct member, find?_add_of_mem distinct' (perm.mem_iff.1 member)]
  · have other : ∀ f ∈ program, x ≠ f.name := fun f member same => defined ⟨f, member, same⟩
    rw [find?_add_of_ne other, find?_add_of_ne fun f member => other f (perm.mem_iff.2 member)]

theorem Admits.perm (admits : t.Admits program) (perm : program.Perm program') :
    t.Admits program' :=
  ⟨(perm.map _).nodup_iff.1 admits.1, fun f member => admits.2 f (perm.mem_iff.2 member)⟩

end FunctionTable

/-! ## Loading -/

/-- The machine with another table of functions. -/
def Machine.withFunctions (t : FunctionTable) (m : Machine) : Machine := { m with functions := t }

namespace Action

variable {m : Machine} {program : Program}

theorem load_cons_run (f : Function) (rest : Program) :
    load (f :: rest) m =
      match m.functions.find? f.name with
      | some taken => .error (.fault (.located f.position (taken.redefinition f.name))) m
      | none => load rest (m.withFunctions (m.functions.insert f.name (.function f))) := by
  rw [load, bind_run, define_run]
  cases m.functions.find? f.name with
  | none => rfl
  | some taken => cases taken <;> rfl

/-- Functions that can be added are added. -/
theorem load_append_run {before : Program} (admits : m.functions.Admits before) (after : Program) :
    load (before ++ after) m = load after (m.withFunctions (m.functions.add before)) := by
  induction before generalizing m with
  | nil => rfl
  | cons f rest inductionHypothesis =>
    obtain ⟨new, others⟩ := FunctionTable.admits_cons.1 admits
    rw [List.cons_append, load_cons_run, new]
    exact inductionHypothesis (m := m.withFunctions (m.functions.insert f.name (.function f)))
      others

theorem load_of_admits (admits : m.functions.Admits program) :
    load program m = .ok () (m.withFunctions (m.functions.add program)) := by
  rw [← List.append_nil program, load_append_run admits, List.append_nil]
  rfl

theorem load_stops {before after : Program} {f : Function} {taken : Callable}
    (admits : m.functions.Admits before)
    (found : (m.functions.add before).find? f.name = some taken) :
    load (before ++ f :: after) m =
      .error (.fault (.located f.position (taken.redefinition f.name)))
        (m.withFunctions (m.functions.add before)) := by
  rw [load_append_run admits, load_cons_run]
  simp only [Machine.withFunctions, found]

theorem load_ok_iff : (∃ m', load program m = .ok () m') ↔ m.functions.Admits program := by
  constructor
  · rintro ⟨m', loaded⟩
    obtain admits | ⟨before, f, after, taken, rfl, admits, found⟩ :=
      m.functions.admits_or_stops program
    · exact admits
    · rw [load_stops admits found] at loaded
      cases loaded
  · exact fun admits => ⟨_, load_of_admits admits⟩

end Action

/-! ## Asking a table -/

namespace Machine

theorem frame_withFunctions (t : FunctionTable) (m : Machine) :
    (m.withFunctions t).frame = m.frame := rfl

theorem store_withFunctions (t : FunctionTable) (m : Machine) :
    (m.withFunctions t).store = m.store := rfl

theorem functions_withFunctions (t : FunctionTable) (m : Machine) :
    (m.withFunctions t).functions = t := rfl

theorem unseen_withFunctions (t : FunctionTable) : Unseen (withFunctions t) :=
  ⟨fun _ => rfl, fun _ => rfl, fun _ _ => rfl, fun _ _ => rfl⟩

end Machine

namespace Action

variable {α : Type} {t : FunctionTable} {m : Machine}

theorem name_commutesWith (same : t.Same m.functions) (x : String) (p : Position) :
    (name x p).CommutesWith (.withFunctions t) m := by
  unfold CommutesWith
  rw [name_run, name_run, Machine.frame_withFunctions, Machine.functions_withFunctions, same x]
  cases m.frame.resolve? x with
  | some w => rfl
  | none => dsimp only; cases m.functions.find? x <;> rfl

theorem declare_commutesWith (x : String) (ty : Ty) (v : Value) (p : Position) :
    (declare x ty v p).CommutesWith (.withFunctions t) m := by
  unfold CommutesWith
  rw [declare_run, declare_run, Machine.frame_withFunctions]
  split
  · rfl
  · split
    · rfl
    · cases v.cast ty <;> rfl

theorem reassign_commutesWith (x : String) (v : Value) (p : Position) :
    (reassign x v p).CommutesWith (.withFunctions t) m := by
  unfold CommutesWith
  rw [reassign_run, reassign_run, Machine.frame_withFunctions, Machine.store_withFunctions]
  cases m.frame.resolve? x with
  | none => rfl
  | some w =>
    dsimp only
    split
    · cases v.cast (m.store.get w.cell).type <;> rfl
    · rfl

theorem inScope_commutesWith {action : Action α}
    (body : action.CommutesWith (.withFunctions t) m.pushScope) :
    (inScope action).CommutesWith (.withFunctions t) m := by
  have same : action (m.withFunctions t).pushScope = _ := body
  unfold CommutesWith
  rw [inScope_run, inScope_run, same]
  cases action m.pushScope <;> rfl

theorem inFrame_commutesWith {action : Action α} {f : Frame}
    (body : action.CommutesWith (.withFunctions t) (m.pushFrame f)) :
    (inFrame f action).CommutesWith (.withFunctions t) m := by
  have same : action ((m.withFunctions t).pushFrame f) = _ := body
  unfold CommutesWith
  rw [inFrame_run, inFrame_run, same]
  cases action (m.pushFrame f) <;> rfl

end Action

theorem Machine.Keeps.same {t : FunctionTable} {m m' : Machine} {mode : Mode}
    (kept : m.Keeps mode m') (same : t.Same m.functions) : t.Same m'.functions := by
  rwa [kept.functions]

open Rightflow.Action in
/-- Actions that leave their surroundings alone, and that do the same with another table which gives
the same callables to names. -/
def askingOnly [Host] (t : FunctionTable) : Discipline where
  toReliance := { Reliance.none with Inv := fun m => t.Same m.functions }
  Sat mode _ action m Q :=
    t.Same m.functions ∧ action.CommutesWith (.withFunctions t) m ∧ surroundings.Sat mode action m Q
  result same known := ⟨same, rfl, surroundings.result trivial known⟩
  halt h same := ⟨same, rfl, surroundings.halt h trivial⟩
  sequence {mode _ _ m action next P Q} first later := by
    obtain ⟨same, commutes, kept⟩ := first
    -- The first action leaves the table alone, so that the second one begins with the same table.
    have next_sat : ∀ x m', m.Keeps mode m' → P x m'.store →
        t.Same m'.functions ∧ (next x).CommutesWith (.withFunctions t) m' ∧
          surroundings.Sat mode (next x) m' Q :=
      fun x m' kept' known => later x m' (kept'.same same) trivial known
    refine ⟨same, commutes.bind fun x m' ending => ?_, ?_⟩
    · have ends := Leads.ok kept ending
      exact (next_sat x m' ends.1 ends.2).2.1
    · refine Leads.bind kept (fun _ => id) fun x m' kept' known => ?_
      exact (next_sat x m' kept' known).2.2.mono (fun _ => kept'.trans) fun _ _ => id
  close kept := ⟨kept.1, kept.2.1, surroundings.close kept.2.2⟩
  name x p same := ⟨same, name_commutesWith same x p, surroundings.name x p trivial⟩
  resolve? x same := ⟨same, rfl, surroundings.resolve? x trivial⟩
  bindFront same _ _ := ⟨same, rfl, surroundings.bindFront trivial trivial fun _ _ => trivial⟩
  callBuiltin {_ b _ args} p same _ _ :=
    ⟨same, callBuiltin_commutesWith (Machine.unseen_withFunctions t) b args p,
      Leads.of_machine (callBuiltin_keeps b args p) fun _ _ => trivial⟩
  declare {_ v} x ty p same _ :=
    ⟨same, declare_commutesWith x ty v p, surroundings.declare x ty p trivial trivial⟩
  reassign {_ v} x p same _ :=
    ⟨same, reassign_commutesWith x v p, surroundings.reassign x p trivial trivial⟩
  inScope same body :=
    ⟨same, inScope_commutesWith (body same).2.1,
      surroundings.inScope trivial fun _ => (body same).2.2⟩
  enter {m _ body Q params args} p same _ kept := by
    have bound : Leads (m.Keeps .closed) (bindParams p params args) m fun _ _ => True :=
      bindParams_keeps p params args
    have binds := bindParams_commutesWith (m := m) (Machine.unseen_withFunctions t) p params args
    refine ⟨same, binds.bind ?_, ?_⟩
    · intro views m₁ ending
      have same₁ := (Leads.ok bound ending).1.same same
      exact inFrame_commutesWith (kept (m₁.pushFrame { params := views }) same₁).2.1
    · refine Leads.bind bound (fun _ => id) fun views m₁ kept₁ _ => leads_inFrame ?_
      have inside := (kept (m₁.pushFrame { params := views }) (kept₁.same same)).2.2
      exact inside.mono (fun _ kept₂ => kept₁.trans kept₂.popFrame) fun _ _ => id

/-! ## Running a program -/

namespace Action

variable {t : FunctionTable} {m : Machine}

theorem mainFunction_commutesWith (same : t.Same m.functions) :
    mainFunction.CommutesWith (.withFunctions t) m := by
  unfold CommutesWith
  rw [mainFunction_run, mainFunction_run, Machine.functions_withFunctions, same "main"]
  cases m.functions.find? "main" with
  | none => rfl
  | some c => cases c <;> rfl

theorem flush_commutesWith {change : Machine → Machine} (unseen : Machine.Unseen change)
    (p : Position) : (flush p).CommutesWith change m := by
  unfold CommutesWith
  rw [flush_run, flush_run, unseen.sink]
  split <;> rfl

theorem asCode_commutesWith {change : Machine → Machine} (v : Value) (p : Position) :
    (asCode v p).CommutesWith change m := by
  cases v <;> rfl

theorem call_commutesWith [Host] (same : t.Same m.functions) (n : Nat) (c : Callable)
    (args : List Arg) (p : Position) : (call n c args p).CommutesWith (.withFunctions t) m :=
  (((askingOnly t).lawful n).call c args p m same trivial fun _ _ => trivial).2.1

/-- What a program does once its functions are loaded does not depend on the order in which they
were. -/
theorem run_of_perm [Host] {program program' : Program} (n : Nat)
    (admits : m.functions.Admits program) (perm : program.Perm program') :
    run n program' m =
      Ending.onMachine (run n program m) (.withFunctions (m.functions.add program')) := by
  have same := FunctionTable.same_add_of_perm (t := m.functions) admits.1 perm
  unfold run
  rw [bind_run, bind_run, load_of_admits admits, load_of_admits (admits.perm perm)]
  change (mainFunction >>= _) ((m.withFunctions (m.functions.add program)).withFunctions
    (m.functions.add program')) = _
  refine (mainFunction_commutesWith same).bind fun f m₁ found => ?_
  -- Finding the main function leaves the machine as it is.
  obtain rfl : m₁ = m.withFunctions (m.functions.add program) := by
    rw [mainFunction_run] at found
    split at found <;> cases found
    rfl
  refine (call_commutesWith same n (.function f) [] f.position).bind fun v m₂ _ => ?_
  exact (flush_commutesWith (Machine.unseen_withFunctions _) f.position).bind fun _ m₃ _ =>
    asCode_commutesWith v f.position

end Action

/-- A program is loaded exactly if the names of its functions are distinct and none of them is
taken.  Otherwise those before the first function whose name is taken are, and the error tells
whether a native function has the name.  A program that is loaded does the same in every order of
its functions. -/
theorem definition_order_is_irrelevant [Host] (m : Machine) (program : Program) :
    ((∃ m', Action.load program m = .ok () m') ↔
      (program.map (·.name)).Nodup ∧ ∀ f ∈ program, m.functions.find? f.name = none) ∧
    (∀ m', Action.load program m = .ok () m' →
      m' = m.withFunctions (m.functions.add program)) ∧
    (∀ e m', Action.load program m = .error e m' →
      ∃ before f after taken, program = before ++ f :: after ∧ m.functions.Admits before ∧
        (m.functions.add before).find? f.name = some taken ∧
        m' = m.withFunctions (m.functions.add before) ∧
        e = .fault (.located f.position (taken.redefinition f.name)) ∧
        ((∃ name, taken.redefinition f.name = .builtinRedefined name) ↔
          ∃ b stamp, taken = .builtin b stamp)) ∧
    ∀ n program', (∃ m', Action.load program m = .ok () m') → program.Perm program' →
      Ending.result (Action.run n program' m) = Ending.result (Action.run n program m) ∧
      (Ending.machine (Action.run n program' m)).sink =
        (Ending.machine (Action.run n program m)).sink := by
  refine ⟨Action.load_ok_iff, fun m' loaded => ?_, fun e m' stopped => ?_,
    fun n program' loaded perm => ?_⟩
  · rw [Action.load_of_admits (Action.load_ok_iff.1 ⟨m', loaded⟩)] at loaded
    cases loaded
    rfl
  · obtain admits | ⟨before, f, after, taken, rfl, admits, found⟩ :=
      m.functions.admits_or_stops program
    · rw [Action.load_of_admits admits] at stopped
      cases stopped
    · rw [Action.load_stops admits found] at stopped
      cases stopped
      exact ⟨before, f, after, taken, rfl, admits, found, rfl, rfl, taken.redefinition_builtin_iff⟩
  · rw [Action.run_of_perm n (Action.load_ok_iff.1 loaded) perm]
    cases Action.run n program m <;> exact ⟨rfl, rfl⟩

/-- A function that returns seven. -/
def seven : Function :=
  ⟨"seven", .base .int false, [], [.giveBack (.literal (.int 7) .start) .start], .start⟩

/-- A main function that returns what `seven` does. -/
def seventh : Function :=
  ⟨"main", .base .int false, [],
    [.giveBack (.call (.name "seven" .start) [] .start) .start], .start⟩

/-- The main function may stand before the function that it calls, or behind it; and no function may
stand twice. -/
theorem seventh_before_or_after_seven :
    Ending.result (Action.run 20 [seventh, seven] .standard) = .ok 7 ∧
    Ending.result (Action.run 20 [seven, seventh] .standard) =
      Ending.result (Action.run 20 [seventh, seven] .standard) ∧
    ¬ ∃ m', Action.load [seven, seven] .standard = .ok () m' :=
  ⟨by rfl,
    ((definition_order_is_irrelevant .standard [seventh, seven]).2.2.2 20 [seven, seventh]
      ⟨_, rfl⟩ (.swap ..)).1,
    fun loaded => absurd ((definition_order_is_irrelevant .standard [seven, seven]).1.1 loaded).1
      (by decide)⟩

end Rightflow
