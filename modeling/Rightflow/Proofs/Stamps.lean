import Mathlib.Data.List.Forall2
import Rightflow.Evaluation
import Rightflow.Proofs.Endings
import Rightflow.Proofs.Values

/-!
# Stamps of callables

The stamp of a callable tells it apart from all others that are made, and does nothing else.  A
relation between stamps carries over to values, stores, machines and endings: `Restamped` says that
two of them are the same but for stamps, and that the stamps in the same places are related.  So a
relation that is a bijection between the stamps of two runs says that the runs make the same
callables, whichever stamps they give to them.

Nothing that is asked of a value depends on a stamp: values that differ in stamps have the same
kind, text and truth, an operator makes the same of them, and they are cast to values that differ in
stamps.
-/

namespace Rightflow

variable {α β ε : Type}

/-! ## The stamps that are borne -/

mutual

/-- The stamps of the callables that a value is made of. -/
def Value.stamps : Value → List Nat
  | .callable c => c.stamps
  | .none | .string _ | .int _ | .flt _ | .bool _ => []

def Callable.stamps : Callable → List Nat
  | .function _ => []
  | .builtin _ stamp => [stamp]
  | .bound callee args stamp => stamp :: (callee.stamps ++ Arg.stampsAll args)

def Arg.stamps : Arg → List Nat
  | .value v => v.stamps
  | .view _ => []

def Arg.stampsAll : List Arg → List Nat
  | [] => []
  | a :: rest => a.stamps ++ Arg.stampsAll rest

end

/-- Whether a callable in a function table or in a variable bears a stamp. -/
def Machine.Bears (m : Machine) (stamp : Nat) : Prop :=
  (∃ x c, m.functions.find? x = some c ∧ stamp ∈ c.stamps) ∨
    ∃ cell, stamp ∈ (m.store.get cell).value.stamps

/-! ## Values with other stamps -/

section

variable (r : Nat → Nat → Prop)

mutual

inductive Value.Restamped : Value → Value → Prop
  | constant {v : Value} : v.IsConstant → Value.Restamped v v
  | callable {c d : Callable} : Callable.Restamped c d → Value.Restamped (.callable c) (.callable d)

inductive Callable.Restamped : Callable → Callable → Prop
  | function (f : Function) : Callable.Restamped (.function f) (.function f)
  | builtin (b : Builtin) {stamp stamp' : Nat} : r stamp stamp' →
    Callable.Restamped (.builtin b stamp) (.builtin b stamp')
  | bound {callee callee' : Callable} {args args' : List Arg} {stamp stamp' : Nat} :
    r stamp stamp' → Callable.Restamped callee callee' → List.Forall₂ Arg.Restamped args args' →
      Callable.Restamped (.bound callee args stamp) (.bound callee' args' stamp')

inductive Arg.Restamped : Arg → Arg → Prop
  | value {v w : Value} : Value.Restamped v w → Arg.Restamped (.value v) (.value w)
  | view (w : View) : Arg.Restamped (.view w) (.view w)

end

end

/-- Whether stamps correspond one to one, as far as they correspond. -/
def OneToOne (r : Nat → Nat → Prop) : Prop := ∀ s s' t t', r s s' → r t t' → (s' = t' ↔ s = t)

variable {r : Nat → Nat → Prop}

mutual

/-- A value may keep the stamps that are related to themselves. -/
theorem Value.restamped_self {v : Value} (kept : ∀ s ∈ v.stamps, r s s) : v.Restamped r v := by
  cases v with
  | callable c => exact .callable (Callable.restamped_self kept)
  | none | string _ | int _ | flt _ | bool _ => exact .constant (by rintro ⟨⟩)

theorem Callable.restamped_self {c : Callable} (kept : ∀ s ∈ c.stamps, r s s) :
    c.Restamped r c := by
  cases c with
  | function f => exact .function f
  | builtin b stamp => exact .builtin b (kept stamp List.mem_cons_self)
  | bound callee args stamp =>
    obtain ⟨outer, inner⟩ := List.forall_mem_cons.1 kept
    obtain ⟨onCallee, onArgs⟩ := List.forall_mem_append.1 inner
    exact .bound outer (Callable.restamped_self onCallee) (Arg.restamped_self_all onArgs)

theorem Arg.restamped_self {a : Arg} (kept : ∀ s ∈ a.stamps, r s s) : a.Restamped r a := by
  cases a with
  | value v => exact .value (Value.restamped_self kept)
  | view w => exact .view w

theorem Arg.restamped_self_all {args : List Arg} (kept : ∀ s ∈ Arg.stampsAll args, r s s) :
    List.Forall₂ (Arg.Restamped r) args args := by
  cases args with
  | nil => exact .nil
  | cons a rest =>
    obtain ⟨first, further⟩ := List.forall_mem_append.1 kept
    exact .cons (Arg.restamped_self first) (Arg.restamped_self_all further)

end

namespace Callable

theorem Restamped.name {c d : Callable} (restamped : c.Restamped r d) : d.name = c.name := by
  induction c using Callable.name.induct generalizing d with
  | case1 f => cases restamped; rfl
  | case2 b stamp => cases restamped; rfl
  | case3 callee args stamp inductionHypothesis =>
    cases restamped with
    | bound _ inner _ =>
      rw [name_bound, name_bound]
      exact inductionHypothesis inner

theorem Restamped.signature {c d : Callable} (restamped : c.Restamped r d) :
    d.signature = c.signature := by
  induction c using Callable.signature.induct generalizing d with
  | case1 f => cases restamped; rfl
  | case2 b stamp => cases restamped; rfl
  | case3 callee args stamp inductionHypothesis =>
    cases restamped with
    | bound _ inner given =>
      rw [signature_bound, signature_bound, inductionHypothesis inner, given.length_eq]

end Callable

/-! ## Outcomes -/

/-- Two outcomes are results that are related, or the same failure. -/
inductive OutcomesAgree (P : α → α → Prop) : Except ε α → Except ε α → Prop
  | ok {a b : α} : P a b → OutcomesAgree P (.ok a) (.ok b)
  | error (e : ε) : OutcomesAgree P (.error e) (.error e)

namespace OutcomesAgree

variable {P : α → α → Prop} {Q : β → β → Prop} {o o' : Except ε α}

theorem map {f : α → β} (agree : OutcomesAgree P o o') (further : ∀ a b, P a b → Q (f a) (f b)) :
    OutcomesAgree Q (o.map f) (o'.map f) := by
  cases agree with
  | ok related => exact .ok (further _ _ related)
  | error e => exact .error e

theorem bind {k k' : α → Except ε β} (agree : OutcomesAgree P o o')
    (further : ∀ a b, P a b → OutcomesAgree Q (k a) (k' b)) :
    OutcomesAgree Q (o >>= k) (o' >>= k') := by
  cases agree with
  | ok related => exact further _ _ related
  | error e => exact .error e

/-- An outcome of which nothing is said but that it is the same. -/
theorem same (outcome : Except ε α) : OutcomesAgree Eq outcome outcome := by
  cases outcome with
  | ok a => exact .ok rfl
  | error e => exact .error e

end OutcomesAgree

/-! ## What is asked of a value -/

namespace Value

variable {v w : Value}

theorem Restamped.kind (restamped : v.Restamped r w) : w.kind = v.kind := by
  cases restamped <;> rfl

theorem Restamped.pieces (restamped : v.Restamped r w) : w.pieces = v.pieces := by
  cases restamped with
  | constant _ => rfl
  | callable inner => simp only [Value.pieces, Callable.pieces, inner.name, inner.signature]

theorem Restamped.truth? (restamped : v.Restamped r w) : w.truth? = v.truth? := by
  cases restamped <;> rfl

theorem Restamped.truth (restamped : v.Restamped r w) : w.truth = v.truth := by
  simp only [Value.truth, noCast, restamped.truth?, restamped.kind]

theorem Restamped.number (restamped : v.Restamped r w) :
    Number.ofValue? w = Number.ofValue? v := by
  cases restamped <;> rfl

/-- Outcomes that are the same and no callable bear no stamps. -/
theorem agree_of_givesConstant {outcome : Except Cause Value} (constant : GivesConstant outcome) :
    OutcomesAgree (Restamped r) outcome outcome := by
  cases outcome with
  | error cause => exact .error cause
  | ok v => exact .ok (.constant (constant v rfl))

theorem Restamped.cast (restamped : v.Restamped r w) (t : Ty) :
    OutcomesAgree (Restamped r) (v.cast t) (w.cast t) := by
  cases t with
  | func ret params =>
    cases restamped with
    | constant constant =>
      cases v with
      | callable c => exact absurd rfl constant
      | none | string _ | int _ | flt _ | bool _ => exact .error _
    | callable inner =>
      simp only [Value.cast, castFunc, inner.signature]
      split
      · exact .ok (.callable inner)
      · exact .error _
  | base b mutable =>
    have constant : GivesConstant (v.cast (.base b mutable)) := fun _ given =>
      isConstant_of_hasType (hasType_of_cast given)
    have same : w.cast (.base b mutable) = v.cast (.base b mutable) := by
      cases restamped with
      | constant _ => rfl
      | callable _ => cases b <;> rfl
    rw [same]
    exact agree_of_givesConstant constant

/-- Where the stamps of two runs correspond one to one, two callables are one object in both runs or
in neither. -/
theorem Restamped.same (oneToOne : OneToOne r)
    {v v' w w' : Value}
    (left : v.Restamped r v') (right : w.Restamped r w') : v'.same w' = v.same w := by
  cases left with
  | constant constant =>
    cases right with
    | constant _ => rfl
    | callable _ => cases v <;> first | rfl | exact absurd rfl constant
  | callable inner =>
    cases right with
    | constant constant => cases w <;> first | rfl | exact absurd rfl constant
    | callable inner' =>
      cases inner <;> cases inner' <;> first | rfl | skip
      · exact decide_eq_decide.2 (oneToOne _ _ _ _ ‹_› ‹_›)
      · exact decide_eq_decide.2 (oneToOne _ _ _ _ ‹_› ‹_›)

end Value

theorem UnaryOp.apply_restamped {v w : Value} (op : UnaryOp) (restamped : v.Restamped r w) :
    OutcomesAgree (Value.Restamped r) (op.apply v) (op.apply w) := by
  have same : op.apply w = op.apply v := by
    simp only [UnaryOp.apply, restamped.number, restamped.kind]
  rw [same]
  exact Value.agree_of_givesConstant (op.apply_givesConstant v)

theorem BinaryOp.apply_restamped [Memory] {v v' w w' : Value} (op : BinaryOp)
    (left : v.Restamped r v') (right : w.Restamped r w') :
    OutcomesAgree (Value.Restamped r) (op.apply v w) (op.apply v' w') := by
  -- To an operator all callables are alike: it looks at their kind at most.
  have same : op.apply v' w' = op.apply v w := by
    cases left with
    | constant _ =>
      cases right with
      | constant _ => rfl
      | callable _ => cases op <;> cases v <;> rfl
    | callable _ =>
      cases right with
      | constant _ => cases op <;> cases w <;> rfl
      | callable _ => cases op <;> rfl
  rw [same]
  exact Value.agree_of_givesConstant (op.apply_givesConstant v w)

/-! ## Stores -/

/-- Two stores have the same variables, with values that differ in stamps, and give out stamps that
are related from here on. -/
structure Store.Restamped (r : Nat → Nat → Prop) (s s' : Store) : Prop where
  size : s'.size = s.size
  name : ∀ cell, (s'.get cell).name = (s.get cell).name
  type : ∀ cell, (s'.get cell).type = (s.get cell).type
  value : ∀ cell, (s.get cell).value.Restamped r (s'.get cell).value
  made : ∀ k, r (s.made + k) (s'.made + k)

namespace Store

variable {s s' : Store}

theorem Restamped.set (restamped : s.Restamped r s') {v v' : Value} (value : v.Restamped r v')
    (cell : Nat) : (s.set cell v).Restamped r (s'.set cell v') := by
  have cells (other : Nat) :
      ((s'.set cell v').get other).name = ((s.set cell v).get other).name ∧
      ((s'.set cell v').get other).type = ((s.set cell v).get other).type ∧
      ((s.set cell v).get other).value.Restamped r ((s'.set cell v').get other).value := by
    rw [get_set, get_set, restamped.size]
    split
    · exact ⟨restamped.name other, restamped.type other, value⟩
    · exact ⟨restamped.name other, restamped.type other, restamped.value other⟩
  exact ⟨by rw [size_set, size_set, restamped.size], fun other => (cells other).1,
    fun other => (cells other).2.1, fun other => (cells other).2.2, restamped.made⟩

theorem get_create_of_ne {s : Store} {x : Variable} {cell : Nat} (other : cell ≠ s.size) :
    (s.create x).2.get cell = s.get cell := by
  simp only [size] at other
  simp [get, create, Array.getD_eq_getD_getElem?, Array.getElem?_push, other]

theorem Restamped.create (restamped : s.Restamped r s') (x : String) (t : Ty) {v v' : Value}
    (value : v.Restamped r v') :
    (s.create ⟨x, t, v⟩).2.Restamped r (s'.create ⟨x, t, v'⟩).2 := by
  have cells (cell : Nat) :
      ((s'.create ⟨x, t, v'⟩).2.get cell).name = ((s.create ⟨x, t, v⟩).2.get cell).name ∧
      ((s'.create ⟨x, t, v'⟩).2.get cell).type = ((s.create ⟨x, t, v⟩).2.get cell).type ∧
      ((s.create ⟨x, t, v⟩).2.get cell).value.Restamped r
        ((s'.create ⟨x, t, v'⟩).2.get cell).value := by
    by_cases last : cell = s.size
    · have last' := s'.get_create ⟨x, t, v'⟩
      rw [restamped.size, ← last] at last'
      rw [last', last, get_create]
      exact ⟨rfl, rfl, value⟩
    · rw [get_create_of_ne last, get_create_of_ne (restamped.size ▸ last)]
      exact ⟨restamped.name cell, restamped.type cell, restamped.value cell⟩
  exact ⟨by rw [size_create, size_create, restamped.size], fun cell => (cells cell).1,
    fun cell => (cells cell).2.1, fun cell => (cells cell).2.2, restamped.made⟩

theorem Restamped.stamp (restamped : s.Restamped r s') : s.stamp.2.Restamped r s'.stamp.2 := by
  refine ⟨restamped.size, restamped.name, restamped.type, restamped.value, fun k => ?_⟩
  have later := restamped.made (1 + k)
  rwa [← Nat.add_assoc, ← Nat.add_assoc] at later

theorem Restamped.argValue (restamped : s.Restamped r s') {a b : Arg} (arg : a.Restamped r b) :
    (s.argValue a).Restamped r (s'.argValue b) := by
  cases arg with
  | value value => exact value
  | view w => exact restamped.value w.cell

theorem Restamped.bindArg (restamped : s.Restamped r s') (x : Param) {a b : Arg}
    (arg : a.Restamped r b) :
    OutcomesAgree (Arg.Restamped r) (s.bindArg x a) (s'.bindArg x b) := by
  cases arg with
  | value value => exact (value.cast x.type).map fun _ _ => .value
  | view w =>
    simp only [Store.bindArg, restamped.type]
    split
    · exact .error _
    · split
      · exact .error _
      · exact .ok (.view _)

theorem Restamped.bindArgs (restamped : s.Restamped r s') (params : List Param)
    {args args' : List Arg} (given : List.Forall₂ (Arg.Restamped r) args args') :
    OutcomesAgree (List.Forall₂ (Arg.Restamped r)) (s.bindArgs params args)
      (s'.bindArgs params args') := by
  induction params generalizing args args' with
  | nil => exact .ok .nil
  | cons x xs inductionHypothesis =>
    cases given with
    | nil => exact .ok .nil
    | cons head tail =>
      exact (restamped.bindArg x head).bind fun _ _ first => (inductionHypothesis tail).bind
        fun _ _ further => .ok (.cons first further)

end Store

/-! ## Machines and endings -/

/-- Two machines that differ in the stamps of their variables' values, and in those that are given
out from here on. -/
structure Machine.Restamped (r : Nat → Nat → Prop) (m m' : Machine) : Prop where
  functions : m'.functions = m.functions
  /-- Both machines have the same callables in the function table. -/
  shared : ∀ x c, m.functions.find? x = some c → c.Restamped r c
  store : m.store.Restamped r m'.store
  frame : m'.frame = m.frame
  callers : m'.callers = m.callers
  sink : m'.sink = m.sink

/-- Two endings with related results, or with the same reason why there is none. -/
inductive Ending.Restamped (r : Nat → Nat → Prop) (P : α → α → Prop) : Ending α → Ending α → Prop
  | ok {a b : α} {m m' : Machine} : P a b → m.Restamped r m' →
    Ending.Restamped r P (.ok a m) (.ok b m')
  | error (e : Halt Fault) {m m' : Machine} : m.Restamped r m' →
    Ending.Restamped r P (.error e m) (.error e m')

theorem Ending.Restamped.onMachine {P : α → α → Prop} {ending ending' : Ending α}
    {change : Machine → Machine} (restamped : ending.Restamped r P ending')
    (moves : ∀ m m', m.Restamped r m' → (change m).Restamped r (change m')) :
    (ending.onMachine change).Restamped r P (ending'.onMachine change) := by
  cases restamped with
  | ok related machines => exact .ok related (moves _ _ machines)
  | error e machines => exact .error e (moves _ _ machines)

end Rightflow
