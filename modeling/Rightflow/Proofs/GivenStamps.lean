import Rightflow.Proofs.Binding
import Rightflow.Proofs.StampIndependence

/-!
# Stamps that have been given out

A store gives out the stamps in order, so that a new one is none that a callable bears, as long as
those that are borne have all been given out before (`Machine.StampsGiven`).  A session begins so,
and every evaluation keeps it (`givenStamps`), on a host that makes no callables with stamps of its
own.

A host that respects stamps may do with them what a program may: it may compare them, and have the
store give out new ones (`Host.RespectsStamps`).
-/

namespace Rightflow

/-! ## Where stamps are -/

theorem Arg.mem_stampsAll {stamp : Nat} {args : List Arg} :
    stamp ∈ Arg.stampsAll args ↔ ∃ a ∈ args, stamp ∈ a.stamps := by
  induction args with
  | nil => simp [Arg.stampsAll]
  | cons a rest inductionHypothesis => simp [Arg.stampsAll, inductionHypothesis]

theorem Value.stamps_of_constant {v : Value} (constant : v.IsConstant) : v.stamps = [] := by
  cases v with
  | callable c => exact absurd rfl constant
  | none | string _ | int _ | flt _ | bool _ => rfl

/-- A callable is cast to itself, and everything else to a constant. -/
theorem Value.mem_stamps_of_cast {v w : Value} {t : Ty} (given : v.cast t = .ok w) {stamp : Nat}
    (member : stamp ∈ w.stamps) : stamp ∈ v.stamps := by
  cases t with
  | func ret params => rwa [eq_of_cast_func given] at member
  | base b mutable =>
    rw [stamps_of_constant (isConstant_of_hasType (hasType_of_cast given))] at member
    cases member

/-! ## Stores and machines -/

namespace Store

/-- Whether a store has given out some stamps. -/
def HasGiven (s : Store) (stamps : List Nat) : Prop := ∀ stamp ∈ stamps, stamp < s.made

/-- The callables in variables bear stamps that the store has given out. -/
def StampsGiven (s : Store) : Prop := ∀ cell, s.HasGiven (s.get cell).value.stamps

variable {s s' : Store} {v w : Value} {a b : Arg}

theorem HasGiven.mono {stamps : List Nat} (given : s.HasGiven stamps) (later : s.made ≤ s'.made) :
    s'.HasGiven stamps :=
  fun stamp member => Nat.lt_of_lt_of_le (given stamp member) later

theorem hasGiven_of_constant (constant : v.IsConstant) : s.HasGiven v.stamps := by
  rw [Value.stamps_of_constant constant]
  exact nofun

theorem HasGiven.cast {t : Ty} (given : s.HasGiven v.stamps) (cast : v.cast t = .ok w) :
    s.HasGiven w.stamps :=
  fun stamp member => given stamp (Value.mem_stamps_of_cast cast member)

theorem HasGiven.bindArg {x : Param} (given : s.HasGiven a.stamps) (taken : s.bindArg x a = .ok b) :
    s.HasGiven b.stamps := by
  obtain ⟨v, w, rfl, cast, rfl⟩ | ⟨w, rfl, _, _, rfl⟩ := bindArg_ok taken
  · exact HasGiven.cast given cast
  · exact nofun

theorem hasGiven_of_bindArgs {params : List Param} {args bound : List Arg}
    (given : ∀ a ∈ args, s.HasGiven a.stamps) (taken : s.bindArgs params args = .ok bound) :
    ∀ b ∈ bound, s.HasGiven b.stamps := by
  intro b member
  obtain ⟨x, a, among, head⟩ := exists_of_mem_bindArgs taken member
  exact (given a (List.of_mem_zip among).2).bindArg head

theorem StampsGiven.set (given : s.StampsGiven) (cell : Nat) (held : s.HasGiven v.stamps) :
    (s.set cell v).StampsGiven := by
  intro other
  rw [get_set]
  split
  · exact held
  · exact given other

theorem StampsGiven.create (given : s.StampsGiven) {x : Variable}
    (held : s.HasGiven x.value.stamps) : (s.create x).2.StampsGiven := by
  intro cell
  by_cases last : cell = s.size
  · rw [last, get_create]
    exact held
  · rw [get_create_of_ne last]
    exact given cell

theorem StampsGiven.stamp (given : s.StampsGiven) : s.stamp.2.StampsGiven :=
  fun cell => (given cell).mono (Nat.le_succ _)

end Store

/-- The callables in variables and in the function table bear stamps that have been given out. -/
structure Machine.StampsGiven (m : Machine) : Prop where
  store : m.store.StampsGiven
  functions : ∀ x c, m.functions.find? x = some c → m.store.HasGiven c.stamps

namespace Machine

variable {m m' : Machine}

theorem StampsGiven.of_bears (given : m.StampsGiven) {stamp : Nat} (borne : m.Bears stamp) :
    stamp < m.store.made := by
  obtain ⟨x, c, found, member⟩ | ⟨cell, member⟩ := borne
  · exact given.functions x c found stamp member
  · exact given.store cell stamp member

/-- A later state of a machine in which all stamps that are borne have been given out. -/
structure Gives (m m' : Machine) : Prop where
  given : m'.StampsGiven
  made : m.store.made ≤ m'.store.made

theorem StampsGiven.refl (given : m.StampsGiven) : m.Gives m := ⟨given, Nat.le_refl _⟩

/-- Only the store and the function table bear stamps. -/
theorem StampsGiven.gives (given : m.StampsGiven) (store : m'.store.StampsGiven)
    (made : m.store.made ≤ m'.store.made) (functions : m'.functions = m.functions) :
    m.Gives m' where
  given := {
    store := store
    functions := fun x c found => (given.functions x c (functions ▸ found)).mono made }
  made := made

/-- A native function that is added gets a stamp that is given out for it. -/
theorem StampsGiven.addBuiltin (given : m.StampsGiven) (b : Builtin) :
    (m.addBuiltin b).StampsGiven where
  store := given.store.stamp
  functions x c found := by
    rw [Machine.addBuiltin, FunctionTable.find?_insert] at found
    split at found
    · cases found
      intro stamp member
      rw [Callable.stamps, List.mem_singleton] at member
      rw [member]
      exact Nat.lt_succ_self _
    · exact (given.functions x c found).mono (Nat.le_succ _)

theorem stampsGiven_ofBuiltins (builtins : List Builtin) (sink : Sink) :
    (Machine.ofBuiltins builtins sink).StampsGiven := by
  have all (m : Machine) (given : m.StampsGiven) : (builtins.foldl addBuiltin m).StampsGiven := by
    induction builtins generalizing m with
    | nil => exact given
    | cons b rest inductionHypothesis => exact inductionHypothesis _ (given.addBuiltin b)
  exact all _ ⟨fun cell => by simp [Store.get, Store.HasGiven, Value.stamps, default], nofun⟩

end Machine

/-! ## Hosts -/

/-- What a host replies bears stamps that the store has given out. -/
structure Reply.StampsGiven (reply : Reply) : Prop where
  store : reply.store.StampsGiven
  value : ∀ v, reply.outcome = .ok v → reply.store.HasGiven v.stamps

/-- A host whose functions tell callables apart by whether they are the same, and make callables
with stamps that the store gives out.  So it does not matter to them which stamps these are. -/
structure Host.RespectsStamps [Host] : Prop where
  restamps : ∀ r, OneToOne r → Host.Restamps r
  given : ∀ code (args : List Arg) p (s : Store) (k : Sink),
    (∀ a ∈ args, s.HasGiven a.stamps) → s.StampsGiven → (Host.run code args p s k).StampsGiven

/-! ## Operations -/

namespace Action

open Machine

variable {m : Machine} {v : Value} {args : List Arg}

theorem create_gives (given : m.StampsGiven) (x : Variable)
    (held : m.store.HasGiven x.value.stamps) :
    m.Gives { m with store := (m.store.create x).2 } :=
  given.gives (given.store.create held) (Nat.le_refl _) rfl

theorem name_gives (given : m.StampsGiven) (x : String) (p : Position) :
    Leads m.Gives (name x p) m fun v s => s.HasGiven v.stamps := by
  unfold Leads
  rw [name_run]
  cases m.frame.resolve? x with
  | some w => exact ⟨given.refl, given.store w.cell⟩
  | none =>
    cases found : m.functions.find? x with
    | some c => exact ⟨given.refl, given.functions x c found⟩
    | none => exact given.refl

theorem bindFront_gives (given : m.StampsGiven) {callee : Callable}
    (heldCallee : m.store.HasGiven callee.stamps)
    (heldArgs : ∀ a ∈ args, m.store.HasGiven a.stamps) :
    Leads m.Gives (bindFront callee args) m fun v s => s.HasGiven v.stamps := by
  have later : m.store.made ≤ m.store.stamp.2.made := Nat.le_succ _
  refine ⟨given.gives given.store.stamp later rfl, fun stamp member => ?_⟩
  -- The new stamp is the last one that has been given out, and the others were there before.
  rw [Value.stamps, Callable.stamps, List.mem_cons, List.mem_append, Arg.mem_stampsAll] at member
  obtain rfl | inner | ⟨a, among, member⟩ := member
  · exact Nat.lt_succ_self _
  · exact (heldCallee.mono later) stamp inner
  · exact ((heldArgs a among).mono later) stamp member

theorem declare_gives (given : m.StampsGiven) (held : m.store.HasGiven v.stamps) (x : String)
    (t : Ty) (p : Position) : Leads m.Gives (declare x t v p) m fun _ _ => True := by
  -- A scope may have been opened even if the declaration fails, but scopes bear no stamps.
  have opened : m.Gives { m with frame := m.frame.withScope } :=
    given.gives given.store (Nat.le_refl _) rfl
  unfold Leads
  rw [declare_run]
  by_cases void : t.isVoid = true
  · rw [if_pos void]
    exact given.refl
  by_cases taken : m.frame.withScope.declares x = true
  · rw [if_neg void, if_pos taken]
    exact opened
  rw [if_neg void, if_neg taken]
  cases cast : v.cast t with
  | error cause => exact opened
  | ok w =>
    have created : (m.store.create ⟨x, t, w⟩).2.StampsGiven := given.store.create (held.cast cast)
    exact ⟨given.gives created (Nat.le_refl _) rfl, trivial⟩

theorem reassign_gives (given : m.StampsGiven) (held : m.store.HasGiven v.stamps) (x : String)
    (p : Position) : Leads m.Gives (reassign x v p) m fun _ _ => True := by
  unfold Leads
  rw [reassign_run]
  cases m.frame.resolve? x with
  | none => exact given.refl
  | some w =>
    dsimp only
    by_cases mutable : w.mutable = true
    · rw [if_pos mutable]
      cases cast : v.cast (m.store.get w.cell).type with
      | error cause => exact given.refl
      | ok u =>
        exact ⟨given.gives (given.store.set w.cell (held.cast cast)) (Nat.le_refl _) rfl, trivial⟩
    · rw [if_neg mutable]
      exact given.refl

theorem bindParam_gives (given : m.StampsGiven) {a : Arg} (held : m.store.HasGiven a.stamps)
    (x : Param) (p : Position) : Leads m.Gives (bindParam x a p) m fun _ _ => True := by
  unfold Leads
  rw [bindParam_run]
  cases taken : m.store.bindArg x a with
  | error cause => exact given.refl
  | ok b =>
    have heldBound := held.bindArg taken
    cases b with
    | view w => exact ⟨given.refl, trivial⟩
    | value v => exact ⟨create_gives given ⟨x.name, x.type, v⟩ heldBound, trivial⟩

theorem bindParams_gives (given : m.StampsGiven) (held : ∀ a ∈ args, m.store.HasGiven a.stamps)
    (params : List Param) (p : Position) :
    Leads m.Gives (bindParams p params args) m fun _ _ => True := by
  induction params generalizing args m with
  | nil => exact ⟨given.refl, trivial⟩
  | cons x xs inductionHypothesis =>
    cases args with
    | nil => exact ⟨given.refl, trivial⟩
    | cons a as =>
      obtain ⟨heldHead, heldTail⟩ := List.forall_mem_cons.1 held
      refine (bindParam_gives given heldHead x p).bind (fun _ => id) fun w m₁ first _ => ?_
      -- Binding the first parameter takes back no stamp, so the other arguments are still right.
      have later := inductionHypothesis first.given fun b member =>
        (heldTail b member).mono first.made
      have whole (m₂ : Machine) (further : m₁.Gives m₂) : m.Gives m₂ :=
        ⟨further.given, Nat.le_trans first.made further.made⟩
      exact later.bind whole fun ws m₂ further _ => ⟨whole m₂ further, trivial⟩

/-! ### Native functions -/

theorem writeValue_gives (given : m.StampsGiven) (v : Value) (p : Position) :
    Leads m.Gives (writeValue v p) m fun _ _ => True := by
  refine Leads.of_machine ?_ fun _ _ => trivial
  rw [writeValue_run]
  dsimp only
  split <;> exact given.gives given.store (Nat.le_refl _) rfl

theorem incrementArg_gives (given : m.StampsGiven) (a : Arg) (p : Position) :
    Leads m.Gives (incrementArg a p) m fun _ _ => True := by
  refine Leads.of_machine ?_ fun _ _ => trivial
  cases a with
  | value v => exact given.refl
  | view w =>
    rw [incrementArg_run]
    split
    next n _ =>
      cases sum : checked (n.toInt + 1) with
      | error cause => exact given.refl
      | ok v =>
        have constant : v.IsConstant := checked_givesConstant _ v sum
        exact given.gives (given.store.set w.cell (Store.hasGiven_of_constant constant))
          (Nat.le_refl _) rfl
    next => exact given.refl

section

variable [Host] (respects : Host.RespectsStamps)

include respects

theorem foreign_gives (given : m.StampsGiven) (held : ∀ a ∈ args, m.store.HasGiven a.stamps)
    (code : Nat) (p : Position) :
    Leads m.Gives (foreign code args p) m fun v s => s.HasGiven v.stamps := by
  have grown := Host.grows code args p m.store m.sink
  obtain ⟨store, value⟩ := respects.given code args p m.store m.sink held given.store
  unfold Leads
  rw [foreign_run, Ending.ofReply]
  generalize Host.run code args p m.store m.sink = reply at grown store value ⊢
  have gives : m.Gives { m with store := reply.store, sink := reply.sink } :=
    given.gives store grown.made rfl
  cases outcome : reply.outcome with
  | ok v => exact ⟨gives, value v outcome⟩
  | error fault => exact gives

theorem native_gives (given : m.StampsGiven) (held : ∀ a ∈ args, m.store.HasGiven a.stamps)
    (action : Native) (p : Position) :
    Leads m.Gives (native action args p) m fun v s => s.HasGiven v.stamps := by
  have nothing (_ : Unit) (m' : Machine) (gives : m.Gives m') (_ : True) :
      Leads m.Gives (pure Value.none) m' fun v s => s.HasGiven v.stamps := ⟨gives, nofun⟩
  cases action with
  | foreign code => exact foreign_gives respects given held code p
  | write =>
    cases args with
    | nil => exact given.refl
    | cons a rest =>
      exact (writeValue_gives given (m.store.argValue a) p).bind (fun _ => id) nothing
  | increment =>
    cases args with
    | nil => exact given.refl
    | cons a rest => exact (incrementArg_gives given a p).bind (fun _ => id) nothing

theorem callBuiltin_gives (given : m.StampsGiven) (held : ∀ a ∈ args, m.store.HasGiven a.stamps)
    (b : Builtin) (p : Position) :
    Leads m.Gives (callBuiltin b args p) m fun v s => s.HasGiven v.stamps := by
  unfold Leads
  rw [callBuiltin_run]
  cases checkArity b.name b.signature.params.length args.length with
  | error cause => exact given.refl
  | ok _ =>
    cases taken : m.store.bindArgs b.params args with
    | error cause => exact given.refl
    | ok bound =>
      exact native_gives respects given (Store.hasGiven_of_bindArgs held taken) b.native p

end

end Action

/-! ## Evaluations -/

open Rightflow.Action in
/-- Actions that bear only stamps that have been given out. -/
def givenStamps [Host] (respects : Host.RespectsStamps) : Discipline where
  Inv := Machine.StampsGiven
  Le s s' := s.made ≤ s'.made
  Held s a := s.HasGiven a.stamps
  Sat _ _ action m Q := Leads m.Gives action m Q
  held_mono later held := held.mono later
  held_constant := Store.hasGiven_of_constant
  held_bound held :=
    ⟨fun stamp member => held stamp (List.mem_cons_of_mem _ (List.mem_append_left _ member)),
      fun a among stamp member => held stamp (List.mem_cons_of_mem _
        (List.mem_append_right _ (Arg.mem_stampsAll.2 ⟨a, among, member⟩)))⟩
  held_cast held cast := held.cast cast
  result given known := ⟨given.refl, known⟩
  halt _ given := given.refl
  sequence kept later := kept.bind (fun _ => id) fun x m₁ gives known =>
    (later x m₁ gives.given gives.made known).mono
      (fun _ further => ⟨further.given, Nat.le_trans gives.made further.made⟩) fun _ _ => id
  close kept := kept
  name x p given := name_gives given x p
  resolve? _ given := ⟨given.refl, fun _ _ => nofun⟩
  bindFront given heldCallee heldArgs := bindFront_gives given heldCallee heldArgs
  callBuiltin p given _ heldArgs := callBuiltin_gives respects given heldArgs _ p
  declare x t p given held := (declare_gives given held x t p).mono (fun _ => id) fun _ _ _ => nofun
  reassign x p given held := reassign_gives given held x p
  inScope given body := leads_inScope <|
    (body ⟨given.store, given.functions⟩).mono
      (fun _ gives => ⟨⟨gives.given.store, gives.given.functions⟩, gives.made⟩) fun _ _ => id
  enter p given heldArgs kept := by
    refine (bindParams_gives given heldArgs _ p).bind (fun _ => id) fun views m₁ gives _ => ?_
    have inside := kept (m₁.pushFrame { params := views })
      ⟨gives.given.store, gives.given.functions⟩
    exact leads_inFrame <| inside.mono (fun _ further =>
      ⟨⟨further.given.store, further.given.functions⟩, Nat.le_trans gives.made further.made⟩)
      fun _ _ => id

/-- Begun where all stamps that are borne have been given out, every evaluation ends so. -/
theorem evaluation_bears_given_stamps [Host] (respects : Host.RespectsStamps) (n : Nat)
    {m : Machine} (given : m.StampsGiven) :
    (∀ e, (Ending.machine (Action.eval n e m)).StampsGiven) ∧
    (∀ s, (Ending.machine (Action.exec n s m)).StampsGiven) ∧
    ∀ c args p, m.store.HasGiven c.stamps → (∀ a ∈ args, m.store.HasGiven a.stamps) →
      (Ending.machine (Action.call n c args p m)).StampsGiven := by
  have lawful := (givenStamps respects).lawful n
  refine ⟨fun e => ?_, fun s => ?_, fun c args p heldCallee heldArgs => ?_⟩
  · exact (Action.Leads.machine (lawful.eval e m given)).given
  · exact (Action.Leads.machine (lawful.exec s m given)).given
  · exact (Action.Leads.machine (lawful.call c args p m given heldCallee heldArgs)).given

end Rightflow
