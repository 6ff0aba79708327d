import Mathlib.Data.List.Forall2
import Rightflow.Machine
import Rightflow.Proofs.Renaming
import Rightflow.Proofs.Values

/-!
# Values of alike functions

Two values are alike if they are one constant, or if they are callables that are made of alike
functions in the same way.  A view leads to the same variable by whatever name.

Nothing that is asked of a value tells alike values apart: their kind, text, truth and signature are
the same, an operator makes the same of them, and what they are cast to is alike.  Only a cause may
tell a name that has been changed, and does so without it the same (`Cause.unnamed`).
-/

namespace Rightflow

variable {α β : Type}

/-! ## Causes without names -/

/-- The cause without the name of a variable or a parameter that is there.  A name that is looked up
in vain stays, and so does that of a function. -/
def Cause.unnamed : Cause → Cause
  | .referenceType _ expected found => .referenceType "" expected found
  | .immutableReference _ => .immutableReference ""
  | .immutableAssignment _ => .immutableAssignment ""
  | .alreadyDeclared _ => .alreadyDeclared ""
  | .voidVariable _ => .voidVariable ""
  | cause => cause

/-- Two outcomes are results that are related, or causes that are the same up to names. -/
inductive OutcomesAlike (P : α → α → Prop) : Except Cause α → Except Cause α → Prop
  | ok {a b : α} : P a b → OutcomesAlike P (.ok a) (.ok b)
  | error {c d : Cause} : d.unnamed = c.unnamed → OutcomesAlike P (.error c) (.error d)

namespace OutcomesAlike

variable {P : α → α → Prop} {Q : β → β → Prop} {o o' : Except Cause α}

theorem map {f : α → β} (alike : OutcomesAlike P o o') (further : ∀ a b, P a b → Q (f a) (f b)) :
    OutcomesAlike Q (o.map f) (o'.map f) := by
  cases alike with
  | ok related => exact .ok (further _ _ related)
  | error same => exact .error same

theorem bind {k k' : α → Except Cause β} (alike : OutcomesAlike P o o')
    (further : ∀ a b, P a b → OutcomesAlike Q (k a) (k' b)) :
    OutcomesAlike Q (o >>= k) (o' >>= k') := by
  cases alike with
  | ok related => exact further _ _ related
  | error same => exact .error same

end OutcomesAlike

/-! ## Views, values, callables and arguments -/

/-- Two ways to one variable, on which the same is allowed. -/
def View.Alike (v w : View) : Prop := w.cell = v.cell ∧ w.mutable = v.mutable

theorem View.Alike.refl (v : View) : v.Alike v := ⟨rfl, rfl⟩

mutual

inductive Value.Alike : Value → Value → Prop
  | constant {v : Value} : v.IsConstant → Value.Alike v v
  | callable {c d : Callable} : Callable.Alike c d → Value.Alike (.callable c) (.callable d)

inductive Callable.Alike : Callable → Callable → Prop
  | function {f g : Function} : f.Alike g → Callable.Alike (.function f) (.function g)
  | builtin (b : Builtin) (stamp : Nat) : Callable.Alike (.builtin b stamp) (.builtin b stamp)
  | bound {callee callee' : Callable} {args args' : List Arg} (stamp : Nat) :
    Callable.Alike callee callee' → List.Forall₂ Arg.Alike args args' →
      Callable.Alike (.bound callee args stamp) (.bound callee' args' stamp)

inductive Arg.Alike : Arg → Arg → Prop
  | value {v w : Value} : Value.Alike v w → Arg.Alike (.value v) (.value w)
  | view {v w : View} : v.Alike w → Arg.Alike (.view v) (.view w)

end

mutual

theorem Value.Alike.refl (v : Value) : v.Alike v := by
  cases v with
  | callable c => exact .callable (Callable.Alike.refl c)
  | none | string _ | int _ | flt _ | bool _ => exact .constant (by rintro ⟨⟩)

theorem Callable.Alike.refl (c : Callable) : c.Alike c := by
  cases c with
  | function f => exact .function (.refl f)
  | builtin b stamp => exact .builtin b stamp
  | bound callee args stamp =>
    exact .bound stamp (Callable.Alike.refl callee) (Arg.alike_refl_all args)

theorem Arg.Alike.refl (a : Arg) : a.Alike a := by
  cases a with
  | value v => exact .value (Value.Alike.refl v)
  | view w => exact .view (.refl w)

theorem Arg.alike_refl_all (args : List Arg) : List.Forall₂ Arg.Alike args args := by
  cases args with
  | nil => exact .nil
  | cons a rest => exact .cons (Arg.Alike.refl a) (Arg.alike_refl_all rest)

end

/-- What two parameters make of alike arguments: alike values, or views of one variable, each under
the name of its parameter. -/
inductive Arg.Taken (x x' : Param) : Arg → Arg → Prop
  | value {v w : Value} : v.Alike w → Arg.Taken x x' (.value v) (.value w)
  | view (cell : Nat) (mutable : Bool) :
    Arg.Taken x x' (.view ⟨cell, x.name, mutable⟩) (.view ⟨cell, x'.name, mutable⟩)

theorem Arg.Taken.alike {x x' : Param} {a b : Arg} (taken : Arg.Taken x x' a b) : a.Alike b := by
  cases taken with
  | value same => exact .value same
  | view cell mutable => exact .view ⟨rfl, rfl⟩

namespace Callable

theorem Alike.name {c d : Callable} (alike : c.Alike d) : d.name = c.name := by
  induction c using Callable.name.induct generalizing d with
  | case1 f => cases alike with | function same => exact same.name
  | case2 b stamp => cases alike with | builtin => rfl
  | case3 callee args stamp inductionHypothesis =>
    cases alike with
    | bound _ inner _ =>
      rw [name_bound, name_bound]
      exact inductionHypothesis inner

theorem Alike.signature {c d : Callable} (alike : c.Alike d) : d.signature = c.signature := by
  induction c using Callable.signature.induct generalizing d with
  | case1 f => cases alike with | function same => exact same.signature
  | case2 b stamp => cases alike with | builtin => rfl
  | case3 callee args stamp inductionHypothesis =>
    cases alike with
    | bound _ inner given =>
      rw [signature_bound, signature_bound, inductionHypothesis inner, given.length_eq]

end Callable

namespace Value

variable {v w : Value}

theorem Alike.kind (alike : v.Alike w) : w.kind = v.kind := by
  cases alike <;> rfl

theorem Alike.pieces (alike : v.Alike w) : w.pieces = v.pieces := by
  cases alike with
  | constant _ => rfl
  | callable same => simp only [Value.pieces, Callable.pieces, same.name, same.signature]

theorem Alike.truth? (alike : v.Alike w) : w.truth? = v.truth? := by
  cases alike <;> rfl

theorem Alike.truth (alike : v.Alike w) : w.truth = v.truth := by
  simp only [Value.truth, noCast, alike.truth?, alike.kind]

/-- Outcomes that are the same and no callable are alike. -/
theorem alike_of_givesConstant {outcome : Except Cause Value} (constant : GivesConstant outcome) :
    OutcomesAlike Alike outcome outcome := by
  cases outcome with
  | error cause => exact .error rfl
  | ok v => exact .ok (.constant (constant v rfl))

theorem Alike.cast (alike : v.Alike w) (t : Ty) : OutcomesAlike Alike (v.cast t) (w.cast t) := by
  cases t with
  | func ret params =>
    cases alike with
    | constant constant =>
      cases v with
      | callable c => exact absurd rfl constant
      | none | string _ | int _ | flt _ | bool _ => exact .error rfl
    | callable same =>
      -- A callable is cast to its own type and stays what it is.
      simp only [Value.cast, castFunc, same.signature]
      split
      · exact .ok (.callable same)
      · exact .error rfl
  | base b mutable =>
    have constant : GivesConstant (v.cast (.base b mutable)) := fun _ given =>
      isConstant_of_hasType (hasType_of_cast given)
    have same : w.cast (.base b mutable) = v.cast (.base b mutable) := by
      cases alike with
      | constant _ => rfl
      | callable _ => cases b <;> rfl
    rw [same]
    exact alike_of_givesConstant constant

theorem default_alike (t : Ty) : OutcomesAlike Alike (Value.default t) (Value.default t) :=
  alike_of_givesConstant fun _ given => isConstant_of_default given

end Value

/-! ## Operators -/

theorem Value.Alike.number {v w : Value} (alike : v.Alike w) :
    Number.ofValue? w = Number.ofValue? v := by
  cases alike <;> rfl

theorem UnaryOp.apply_alike {v w : Value} (op : UnaryOp) (alike : v.Alike w) :
    OutcomesAlike Value.Alike (op.apply v) (op.apply w) := by
  have same : op.apply w = op.apply v := by
    simp only [UnaryOp.apply, alike.number, alike.kind]
  rw [same]
  exact Value.alike_of_givesConstant (op.apply_givesConstant v)

namespace BinaryOp

variable {v v' w w' : Value}

/-- An operator does not look into a callable. -/
theorem apply_eq_of_alike [Memory] (op : BinaryOp) (left : v.Alike v') (right : w.Alike w') :
    op.apply v' w' = op.apply v w := by
  cases left with
  | constant _ =>
    cases right with
    | constant _ => rfl
    | callable _ => cases op <;> cases v <;> rfl
  | callable _ =>
    cases right with
    | constant _ => cases op <;> cases w <;> rfl
    | callable _ => cases op <;> rfl

theorem apply_alike [Memory] (op : BinaryOp) (left : v.Alike v') (right : w.Alike w') :
    OutcomesAlike Value.Alike (op.apply v w) (op.apply v' w') := by
  rw [op.apply_eq_of_alike left right]
  exact Value.alike_of_givesConstant (op.apply_givesConstant v w)

end BinaryOp

/-! ## Stores -/

/-- Two stores have the same variables up to their names, and alike values in them. -/
structure Store.Alike (s s' : Store) : Prop where
  size : s'.size = s.size
  made : s'.made = s.made
  type : ∀ cell, (s'.get cell).type = (s.get cell).type
  value : ∀ cell, (s.get cell).value.Alike (s'.get cell).value

namespace Store

theorem get_create_of_gt (s : Store) (x : Variable) {cell : Nat} (outside : s.size < cell) :
    (s.create x).2.get cell = default := by
  have absent : (s.create x).2.cells.size ≤ cell := by
    simp only [create, Array.size_push]
    exact outside
  rw [get, Array.getD_eq_getD_getElem?, Array.getElem?_eq_none absent]
  rfl

theorem directView_create (s : Store) (x : Variable) :
    (s.create x).2.directView s.size = ⟨s.size, x.name, x.type.isMutable⟩ := by
  rw [directView, get_create]

variable {s s' : Store}

theorem Alike.refl (s : Store) : s.Alike s := ⟨rfl, rfl, fun _ => rfl, fun _ => .refl _⟩

theorem Alike.create (alike : s.Alike s') {x x' : Variable} (type : x'.type = x.type)
    (value : x.value.Alike x'.value) : (s.create x).2.Alike (s'.create x').2 := by
  have cells : ∀ cell, ((s'.create x').2.get cell).type = ((s.create x).2.get cell).type ∧
      ((s.create x).2.get cell).value.Alike ((s'.create x').2.get cell).value := by
    intro cell
    obtain inside | rfl | outside := Nat.lt_trichotomy cell s.size
    · rw [get_create_of_lt s x inside, get_create_of_lt s' x' (alike.size ▸ inside)]
      exact ⟨alike.type cell, alike.value cell⟩
    · have last := s'.get_create x'
      rw [alike.size] at last
      rw [get_create, last]
      exact ⟨type, value⟩
    · rw [get_create_of_gt s x outside, get_create_of_gt s' x' (alike.size ▸ outside)]
      exact ⟨rfl, .refl _⟩
  exact ⟨by rw [size_create, size_create, alike.size], alike.made, fun cell => (cells cell).1,
    fun cell => (cells cell).2⟩

theorem Alike.set (alike : s.Alike s') {v v' : Value} (value : v.Alike v') (cell : Nat) :
    (s.set cell v).Alike (s'.set cell v') := by
  refine ⟨by rw [size_set, size_set, alike.size], alike.made, fun other => ?_, fun other => ?_⟩
  · rw [get_set, get_set, alike.size]
    split
    · exact alike.type other
    · exact alike.type other
  · rw [get_set, get_set, alike.size]
    split
    · exact value
    · exact alike.value other

theorem Alike.stamp (alike : s.Alike s') : s.stamp.2.Alike s'.stamp.2 :=
  ⟨alike.size, congrArg (· + 1) alike.made, alike.type, alike.value⟩

theorem Alike.argValue (alike : s.Alike s') {a b : Arg} (same : a.Alike b) :
    (s.argValue a).Alike (s'.argValue b) := by
  cases same with
  | value same => exact same
  | @view v w same =>
    change (s.get v.cell).value.Alike (s'.get w.cell).value
    rw [same.1]
    exact alike.value v.cell

/-- Two parameters of one type take alike arguments alike. -/
theorem Alike.bindArg (alike : s.Alike s') {x x' : Param} (type : x'.type = x.type) {a b : Arg}
    (same : a.Alike b) : OutcomesAlike (Arg.Taken x x') (s.bindArg x a) (s'.bindArg x' b) := by
  cases same with
  | value same =>
    rw [Store.bindArg, Store.bindArg, type]
    exact (same.cast x.type).map fun _ _ => .value
  | view same =>
    simp only [Store.bindArg, type, same.1, same.2, alike.type]
    split
    · exact .error rfl
    · split
      · exact .error rfl
      · exact .ok (.view _ _)

theorem Alike.bindArgs (alike : s.Alike s') (params : List Param) {args args' : List Arg}
    (same : List.Forall₂ Arg.Alike args args') :
    OutcomesAlike (List.Forall₂ Arg.Alike) (s.bindArgs params args) (s'.bindArgs params args') := by
  induction params generalizing args args' with
  | nil => exact .ok .nil
  | cons x xs inductionHypothesis =>
    cases same with
    | nil => exact .ok .nil
    | @cons a b as bs head tail =>
      have first : OutcomesAlike (Arg.Taken x x) (s.bindArg x a) (s'.bindArg x b) :=
        alike.bindArg rfl head
      exact first.bind fun _ _ taken => (inductionHypothesis tail).bind fun _ _ rest =>
        .ok (.cons taken.alike rest)

end Store

/-! ## Function tables -/

/-- Two tables give alike callables to every name. -/
def FunctionTable.Alike (t t' : FunctionTable) : Prop :=
  ∀ x, Option.Rel Callable.Alike (t.find? x) (t'.find? x)

namespace FunctionTable

variable {t t' : FunctionTable}

theorem Alike.refl (t : FunctionTable) : t.Alike t := by
  intro x
  cases t.find? x with
  | none => exact .none
  | some c => exact .some (.refl c)

theorem Alike.insert (alike : t.Alike t') (x : String) {c d : Callable} (same : c.Alike d) :
    (t.insert x c).Alike (t'.insert x d) := by
  intro z
  rw [find?_insert, find?_insert]
  split
  · exact .some same
  · exact alike z

end FunctionTable

/-! ## Frames -/

/-- A view under another name. -/
def View.rename (r : Renaming) (w : View) : View := { w with name := r.apply w.name }

theorem View.alike_rename (r : Renaming) (w : View) : w.Alike (w.rename r) := ⟨rfl, rfl⟩

def Frame.rename (r : Renaming) (f : Frame) : Frame :=
  ⟨f.params.map (View.rename r), f.scopes.map (List.map (View.rename r))⟩

namespace Frame

variable (r : Renaming) (f : Frame)

@[simp] theorem rename_identity : f.rename .identity = f := by
  have same : View.rename .identity = id := rfl
  rw [rename, same, List.map_id_fun, List.map_id_fun]
  rfl

theorem views_rename : (f.rename r).views = f.views.map (View.rename r) := by
  simp only [views, rename, List.map_append, List.map_flatten]

/-- What a name means is not changed by a change of all names. -/
theorem resolve?_rename (z : String) :
    (f.rename r).resolve? (r.apply z) = (f.resolve? z).map (View.rename r) := by
  rw [resolve?, resolve?, views_rename, List.find?_map]
  congr 2
  funext w
  exact decide_eq_decide.2 ⟨r.injective, congrArg r.apply⟩

theorem declares_rename (z : String) : (f.rename r).declares (r.apply z) = f.declares z := by
  have innermost : (f.rename r).innermost = f.innermost.map (View.rename r) := by
    rcases f with ⟨params, _ | ⟨scope, rest⟩⟩ <;> rfl
  rw [declares, declares, innermost, List.any_map]
  congr 1
  funext w
  exact decide_eq_decide.2 ⟨r.injective, congrArg r.apply⟩

theorem declare_rename (w : View) : (f.rename r).declare (w.rename r) = (f.declare w).rename r := by
  rcases f with ⟨params, _ | ⟨scope, rest⟩⟩ <;> rfl

theorem withScope_rename : (f.rename r).withScope = f.withScope.rename r := by
  rcases f with ⟨params, _ | ⟨scope, rest⟩⟩ <;> rfl

theorem params_withScope : f.withScope.params = f.params := by
  unfold withScope
  split <;> rfl

theorem pushScope_rename : (f.rename r).pushScope = f.pushScope.rename r := rfl

theorem popScope_rename : (f.rename r).popScope = f.popScope.rename r := by
  rcases f with ⟨params, _ | ⟨scope, rest⟩⟩ <;> rfl

end Frame

end Rightflow
