import Rightflow.Proofs.BareTrees
import Rightflow.Proofs.Values
import Rightflow.Session

/-!
# Other positions

A change of positions is a function on them, and it is carried out on everything in which positions
stand: tokens, trees, the functions that callables are made of, and with them values, stores and
machines.  What has been read off a source text at one place is so compared with what has been read
off elsewhere.

Nothing that is asked of a value depends on the positions in it: its kind, its text, its truth, the
signature of a callable, how it is cast and what an operator makes of it.
-/

namespace Rightflow

variable (f : Position → Position)

/-! ## Tokens and errors -/

def Token.relocate (t : Token) : Token := ⟨t.form, f t.position⟩

@[simp] theorem Token.form_relocate (t : Token) : (t.relocate f).form = t.form := rfl

def ParseError.relocate (e : ParseError) : ParseError := ⟨e.cause, f e.position⟩

def Fault.relocate : Fault → Fault
  | .located p cause => .located (f p) cause
  | .missingMain => .missingMain

def Error.relocate : Error → Error
  | .lexical e => .lexical ⟨e.cause, f e.position⟩
  | .grammatical e => .grammatical (e.relocate f)
  | .runtime e => .runtime (e.relocate f)

def Warning.relocate (w : Warning) : Warning := ⟨w.caution, f w.position⟩

/-- What a stage answers, or its error, with all positions changed. -/
def relocateOutcome {α : Type} (move : α → α) : Except (Halt Error) α → Except (Halt Error) α
  | .ok a => .ok (move a)
  | .error halt => .error (halt.map (Error.relocate f))

/-- Outcomes that differ in positions only are of one kind. -/
theorem relocateOutcome_cases {α : Type} {f : Position → Position} {move : α → α}
    {outcome outcome' : Except (Halt Error) α}
    (same : relocateOutcome f move outcome = relocateOutcome f move outcome') :
    (∃ a a', outcome = .ok a ∧ outcome' = .ok a' ∧ move a = move a') ∨
      ∃ halt halt' : Halt Error, outcome = .error halt ∧ outcome' = .error halt' ∧
        halt.map (Error.relocate f) = halt'.map (Error.relocate f) := by
  cases outcome with
  | ok a =>
    cases outcome' with
    | ok a' => exact .inl ⟨a, a', rfl, rfl, Except.ok.inj same⟩
    | error halt' => cases same
  | error halt =>
    cases outcome' with
    | ok a' => cases same
    | error halt' => exact .inr ⟨halt, halt', rfl, rfl, Except.error.inj same⟩

/-! ## Trees -/

mutual

def Expr.relocate : Expr → Expr
  | .literal value p => .literal value (f p)
  | .name x p => .name x (f p)
  | .unary op operand p => .unary op operand.relocate (f p)
  | .binary op left right p => .binary op left.relocate right.relocate (f p)
  | .call callee args p => .call callee.relocate (Expr.relocateAll args) (f p)
  | .bind callee args p => .bind callee.relocate (Expr.relocateAll args) (f p)

def Expr.relocateAll : List Expr → List Expr
  | [] => []
  | e :: es => e.relocate :: Expr.relocateAll es

end

@[simp] theorem Expr.relocateAll_eq_map (es : List Expr) :
    Expr.relocateAll f es = es.map (Expr.relocate f) := by
  induction es with
  | nil => rfl
  | cons e es inductionHypothesis => simp [Expr.relocateAll, inductionHypothesis]

@[simp] theorem Expr.position_relocate (e : Expr) : (e.relocate f).position = f e.position := by
  cases e <;> rfl

def Assignment.relocate (a : Assignment) : Assignment :=
  ⟨a.value.relocate f, a.declared?, a.name, f a.position⟩

def Iterator.relocate : Iterator → Iterator
  | .assign a => .assign (a.relocate f)
  | .existing x p => .existing x (f p)

mutual

def Stmt.relocate : Stmt → Stmt
  | .assign a => .assign (a.relocate f)
  | .run e p => .run (e.relocate f) (f p)
  | .giveBack e p => .giveBack (e.relocate f) (f p)
  | .branch cond body others p =>
    .branch (cond.relocate f) (Stmt.relocateAll body) others.relocate (f p)
  | .whileLoop cond body p => .whileLoop (cond.relocate f) (Stmt.relocateAll body) (f p)
  | .forLoop iter cond body onIter p =>
    .forLoop (iter.relocate f) (cond.relocate f) (Stmt.relocateAll body) (onIter.relocate f) (f p)

def Stmt.relocateAll : Block → Block
  | [] => []
  | s :: body => s.relocate :: Stmt.relocateAll body

def Otherwise.relocate : Otherwise → Otherwise
  | .nothing => .nothing
  | .elif cond body others p =>
    .elif (cond.relocate f) (Stmt.relocateAll body) others.relocate (f p)
  | .block body p => .block (Stmt.relocateAll body) (f p)

end

@[simp] theorem Stmt.relocateAll_eq_map (body : Block) :
    Stmt.relocateAll f body = body.map (Stmt.relocate f) := by
  induction body with
  | nil => rfl
  | cons s body inductionHypothesis => simp [Stmt.relocateAll, inductionHypothesis]

def Function.relocate (g : Function) : Function :=
  ⟨g.name, g.ret, g.params, Stmt.relocateAll f g.body, f g.position⟩

def Program.relocate (p : Program) : Program := p.map (Function.relocate f)

/-! ### No positions -/

section

/-- The change that takes every position to the beginning. -/
abbrev Position.erase : Position → Position := fun _ => .start

mutual

theorem Expr.relocate_erase : ∀ e : Expr, e.relocate Position.erase = e.bare
  | .literal _ _ | .name _ _ => rfl
  | .unary op operand p => by rw [relocate, bare, relocate_erase operand]
  | .binary op left right p => by rw [relocate, bare, relocate_erase left, relocate_erase right]
  | .call callee args p => by rw [relocate, bare, relocate_erase callee, relocateAll_erase args]
  | .bind callee args p => by rw [relocate, bare, relocate_erase callee, relocateAll_erase args]

theorem Expr.relocateAll_erase :
    ∀ es : List Expr, Expr.relocateAll Position.erase es = Expr.bareAll es
  | [] => rfl
  | e :: es => by rw [relocateAll, bareAll, relocate_erase e, relocateAll_erase es]

end

theorem Assignment.relocate_erase (a : Assignment) : a.relocate Position.erase = a.bare := by
  rw [relocate, bare, Expr.relocate_erase]

theorem Iterator.relocate_erase (i : Iterator) : i.relocate Position.erase = i.bare := by
  cases i with
  | assign a => rw [relocate, bare, Assignment.relocate_erase]
  | existing x p => rfl

mutual

theorem Stmt.relocate_erase : ∀ s : Stmt, s.relocate Position.erase = s.bare
  | .assign a => by rw [Stmt.relocate, Stmt.bare, Assignment.relocate_erase]
  | .run e p => by rw [Stmt.relocate, Stmt.bare, Expr.relocate_erase]
  | .giveBack e p => by rw [Stmt.relocate, Stmt.bare, Expr.relocate_erase]
  | .branch cond body others p => by
    rw [Stmt.relocate, Stmt.bare, Expr.relocate_erase, Stmt.relocateAll_erase body,
      others.relocate_erase]
  | .whileLoop cond body p => by
    rw [Stmt.relocate, Stmt.bare, Expr.relocate_erase, Stmt.relocateAll_erase body]
  | .forLoop iter cond body onIter p => by
    rw [Stmt.relocate, Stmt.bare, Iterator.relocate_erase, Expr.relocate_erase,
      Stmt.relocateAll_erase body, Expr.relocate_erase]

theorem Stmt.relocateAll_erase :
    ∀ body : Block, Stmt.relocateAll Position.erase body = Stmt.bareAll body
  | [] => rfl
  | s :: body => by
    rw [Stmt.relocateAll, Stmt.bareAll, s.relocate_erase, Stmt.relocateAll_erase body]

theorem Otherwise.relocate_erase : ∀ o : Otherwise, o.relocate Position.erase = o.bare
  | .nothing => rfl
  | .elif cond body others p => by
    rw [Otherwise.relocate, Otherwise.bare, Expr.relocate_erase, Stmt.relocateAll_erase body,
      others.relocate_erase]
  | .block body p => by rw [Otherwise.relocate, Otherwise.bare, Stmt.relocateAll_erase body]

end

theorem Program.relocate_erase (p : Program) : Program.relocate Position.erase p = p.bare := by
  refine List.map_congr_left fun g _ => ?_
  rw [Function.relocate, Function.bare, Stmt.relocateAll_erase]

end

/-! ## Values -/

mutual

def Value.relocate : Value → Value
  | .none => .none
  | .string s => .string s
  | .int n => .int n
  | .flt x => .flt x
  | .bool b => .bool b
  | .callable c => .callable c.relocate

def Callable.relocate : Callable → Callable
  | .function g => .function (g.relocate f)
  | .builtin b stamp => .builtin b stamp
  | .bound callee args stamp => .bound callee.relocate (Arg.relocateAll args) stamp

def Arg.relocate : Arg → Arg
  | .value v => .value v.relocate
  | .view w => .view w

def Arg.relocateAll : List Arg → List Arg
  | [] => []
  | a :: rest => a.relocate :: Arg.relocateAll rest

end

@[simp] theorem Arg.relocateAll_eq_map (args : List Arg) :
    Arg.relocateAll f args = args.map (Arg.relocate f) := by
  induction args with
  | nil => rfl
  | cons a rest inductionHypothesis => simp [Arg.relocateAll, inductionHypothesis]

@[simp] theorem Callable.relocate_bound (callee : Callable) (args : List Arg) (stamp : Nat) :
    (Callable.bound callee args stamp).relocate f =
      .bound (callee.relocate f) (args.map (Arg.relocate f)) stamp := by
  rw [Callable.relocate, Arg.relocateAll_eq_map]

@[simp] theorem Callable.signature_relocate (c : Callable) :
    (c.relocate f).signature = c.signature := by
  induction c using Callable.signature.induct with
  | case1 g => rfl
  | case2 b stamp => rfl
  | case3 callee args stamp inductionHypothesis => simp [inductionHypothesis]

@[simp] theorem Callable.name_relocate (c : Callable) : (c.relocate f).name = c.name := by
  induction c using Callable.name.induct with
  | case1 g => rfl
  | case2 b stamp => rfl
  | case3 callee args stamp inductionHypothesis => simp [inductionHypothesis]

namespace Value

variable {f}

theorem IsConstant.relocate {v : Value} (constant : v.IsConstant) : v.relocate f = v := by
  cases v with
  | callable c => exact absurd rfl constant
  | none | string _ | int _ | flt _ | bool _ => rfl

variable (f)

@[simp] theorem kind_relocate (v : Value) : (v.relocate f).kind = v.kind := by
  cases v <;> rfl

@[simp] theorem pieces_relocate (v : Value) : (v.relocate f).pieces = v.pieces := by
  cases v with
  | callable c => simp [relocate, pieces, Callable.pieces]
  | none | string _ | int _ | flt _ | bool _ => rfl

@[simp] theorem string?_relocate (v : Value) : (v.relocate f).string? = v.string? := by
  cases v <;> rfl

@[simp] theorem truth?_relocate (v : Value) : (v.relocate f).truth? = v.truth? := by
  cases v <;> rfl

@[simp] theorem truth_relocate (v : Value) : (v.relocate f).truth = v.truth := by
  simp [truth, noCast]

/-- Moving does not change a constant that an operation gives. -/
theorem map_relocate {outcome : Except Cause Value} (constant : GivesConstant outcome) :
    outcome.map (Value.relocate f) = outcome := by
  cases outcome with
  | error cause => rfl
  | ok v => simp [Except.map, (constant v rfl).relocate]

/-- A value that is moved is cast to what the value is cast to, moved. -/
theorem cast_relocate (v : Value) (t : Ty) :
    (v.relocate f).cast t = (v.cast t).map (Value.relocate f) := by
  cases t with
  | func ret params =>
    cases v with
    | callable c =>
      -- A callable is cast to its own type, wherever it stands.
      simp only [relocate, cast, castFunc, Callable.signature_relocate]
      split <;> rfl
    | none | string _ | int _ | flt _ | bool _ => rfl
  | base b mutable =>
    have constant : GivesConstant (v.cast (.base b mutable)) := fun w given =>
      isConstant_of_hasType (hasType_of_cast given)
    rw [map_relocate f constant]
    cases b <;> cases v <;> rfl

theorem default_relocate (t : Ty) : (Value.default t).map (Value.relocate f) = Value.default t :=
  map_relocate f fun _ given => isConstant_of_default given

end Value

/-! ## Operators -/

@[simp] theorem Number.ofValue?_relocate (v : Value) :
    Number.ofValue? (v.relocate f) = Number.ofValue? v := by
  cases v <;> rfl

@[simp] theorem UnaryOp.apply_relocate (op : UnaryOp) (v : Value) :
    op.apply (v.relocate f) = op.apply v := by
  simp [UnaryOp.apply]

namespace BinaryOp

theorem arithmetic_relocate [Memory] (op : BinaryOp) (left right : Value) :
    op.arithmetic (left.relocate f) (right.relocate f) = op.arithmetic left right := by
  have numbers : op.onNumbers (left.relocate f) (right.relocate f) = op.onNumbers left right := by
    simp [onNumbers, unsupported]
  have texts : Text.concatenate (left.relocate f) (right.relocate f) =
      Text.concatenate left right := by
    simp [Text.concatenate, Value.noCast]
  cases op <;> cases left <;> cases right <;> first | exact texts | exact numbers | rfl

theorem comparison_relocate (op : BinaryOp) (left right : Value) :
    op.comparison (left.relocate f) (right.relocate f) = op.comparison left right := by
  have compared : compareValues? (left.relocate f) (right.relocate f) =
      compareValues? left right := by
    cases left <;> cases right <;> rfl
  simp [comparison, compared, unsupported]

@[simp] theorem apply_relocate [Memory] (op : BinaryOp) (left right : Value) :
    op.apply (left.relocate f) (right.relocate f) = op.apply left right := by
  cases op <;>
    simp [apply, arithmetic_relocate, comparison_relocate, logic, unsupported]

end BinaryOp

/-! ## Machines -/

def Variable.relocate (x : Variable) : Variable := ⟨x.name, x.type, x.value.relocate f⟩

@[simp] theorem Variable.type_relocate (x : Variable) : (x.relocate f).type = x.type := rfl

def Store.relocate (s : Store) : Store := { s with cells := s.cells.map (Variable.relocate f) }

namespace Store

@[simp] theorem size_relocate (s : Store) : (s.relocate f).size = s.size := by
  simp [relocate, size]

@[simp] theorem get_relocate (s : Store) (cell : Nat) :
    (s.relocate f).get cell = (s.get cell).relocate f := by
  simp only [relocate, get, Array.getD_eq_getD_getElem?, Array.getElem?_map]
  cases s.cells[cell]? <;> rfl

theorem create_relocate (s : Store) (x : Variable) :
    ((s.relocate f).create (x.relocate f)).2 = (s.create x).2.relocate f := by
  simp [create, relocate]

theorem set_relocate (s : Store) (cell : Nat) (v : Value) :
    (s.relocate f).set cell (v.relocate f) = (s.set cell v).relocate f := by
  simp only [set, relocate, mk.injEq, and_true]
  refine Array.ext (by simp) fun i _ _ => ?_
  by_cases same : cell = i <;> simp [Array.getElem_modify, same, Variable.relocate]

theorem stamp_relocate (s : Store) : (s.relocate f).stamp = (s.stamp.1, s.stamp.2.relocate f) := rfl

@[simp] theorem directView_relocate (s : Store) (cell : Nat) :
    (s.relocate f).directView cell = s.directView cell := by
  simp [directView, Variable.relocate]

@[simp] theorem argValue_relocate (s : Store) (a : Arg) :
    (s.relocate f).argValue (a.relocate f) = (s.argValue a).relocate f := by
  cases a with
  | value v => rfl
  | view w => simp [argValue, Arg.relocate, Variable.relocate]

theorem bindArg_relocate (s : Store) (x : Param) (a : Arg) :
    (s.relocate f).bindArg x (a.relocate f) = (s.bindArg x a).map (Arg.relocate f) := by
  cases a with
  | value v =>
    simp only [bindArg, Arg.relocate, Value.cast_relocate]
    cases v.cast x.type <;> rfl
  | view w =>
    simp only [bindArg, Arg.relocate, get_relocate, Variable.relocate]
    split
    · rfl
    · split <;> rfl

theorem bindArgs_relocate (s : Store) (params : List Param) (args : List Arg) :
    (s.relocate f).bindArgs params (args.map (Arg.relocate f)) =
      (s.bindArgs params args).map (List.map (Arg.relocate f)) := by
  induction params generalizing args with
  | nil => rfl
  | cons x xs inductionHypothesis =>
    cases args with
    | nil => rfl
    | cons a as =>
      simp only [List.map_cons, bindArgs, bindArg_relocate, inductionHypothesis]
      cases s.bindArg x a with
      | error cause => rfl
      | ok b => cases s.bindArgs xs as <;> rfl

end Store

def FunctionTable.relocate (t : FunctionTable) : FunctionTable :=
  ⟨t.entries.map fun e => (e.1, e.2.relocate f)⟩

namespace FunctionTable

@[simp] theorem find?_relocate (t : FunctionTable) (x : String) :
    (t.relocate f).find? x = (t.find? x).map (Callable.relocate f) := by
  obtain ⟨entries⟩ := t
  simp only [relocate, find?]
  induction entries with
  | nil => rfl
  | cons e rest inductionHypothesis =>
    simp only [List.map_cons, findIn?, inductionHypothesis]
    split <;> rfl

theorem insert_relocate (t : FunctionTable) (x : String) (c : Callable) :
    (t.relocate f).insert x (c.relocate f) = (t.insert x c).relocate f := by
  obtain ⟨entries⟩ := t
  simp only [relocate, insert, mk.injEq]
  induction entries with
  | nil => rfl
  | cons e rest inductionHypothesis =>
    simp only [List.map_cons, insertEntry]
    split
    · rfl
    · split
      · rfl
      · simp [inductionHypothesis]

end FunctionTable

def Machine.relocate (m : Machine) : Machine :=
  { m with functions := m.functions.relocate f, store := m.store.relocate f }

section

variable (m : Machine)

@[simp] theorem Machine.functions_relocate :
    (m.relocate f).functions = m.functions.relocate f := rfl

@[simp] theorem Machine.store_relocate : (m.relocate f).store = m.store.relocate f := rfl

@[simp] theorem Machine.frame_relocate : (m.relocate f).frame = m.frame := rfl

@[simp] theorem Machine.sink_relocate : (m.relocate f).sink = m.sink := rfl

end

/-- A machine that knows native functions only has no positions in it. -/
theorem Machine.relocate_ofBuiltins (builtins : List Builtin) (sink : Sink) :
    (Machine.ofBuiltins builtins sink).relocate f = .ofBuiltins builtins sink := by
  have adds (m : Machine) (b : Builtin) :
      (m.addBuiltin b).relocate f = (m.relocate f).addBuiltin b := by
    simp only [addBuiltin, relocate, Store.stamp_relocate, ← FunctionTable.insert_relocate,
      Callable.relocate]
  have folds (m : Machine) :
      (builtins.foldl addBuiltin m).relocate f = builtins.foldl addBuiltin (m.relocate f) := by
    induction builtins generalizing m with
    | nil => rfl
    | cons b rest inductionHypothesis => simp [inductionHypothesis, adds]
  have empty : Machine.relocate f { sink := sink } = { sink := sink } := by
    simp [relocate, Store.relocate, FunctionTable.relocate]
  rw [ofBuiltins, folds, empty]

end Rightflow
