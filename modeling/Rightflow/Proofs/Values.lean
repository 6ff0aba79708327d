import Rightflow.Builtin

/-!
# What values hold

A value that is a callable holds functions, native functions and views of variables: the arguments
that were bound to it, and those that were bound to the callable inside it.  `leaves` lists them.
A view is listed, but what its variable holds is not.

`hasType` says which values a variable of a type may hold.  A cast gives such a value
(`hasType_of_cast`), and adds nothing to what the value holds (`mem_leaves_of_cast`).  Operators
give constants, which hold nothing.
-/

namespace Rightflow

/-! ## Leaves -/

/-- What a callable is made of in the end. -/
inductive Leaf where
  | function (f : Function)
  | builtin (b : Builtin)
  | view (w : View)

mutual

def Value.leaves : Value → List Leaf
  | .callable c => c.leaves
  | .none | .string _ | .int _ | .flt _ | .bool _ => []

def Callable.leaves : Callable → List Leaf
  | .function f => [.function f]
  | .builtin b _ => [.builtin b]
  | .bound callee args _ => callee.leaves ++ Arg.listLeaves args

def Arg.leaves : Arg → List Leaf
  | .value v => v.leaves
  | .view w => [.view w]

/-- What the arguments of a list hold, one after the other. -/
def Arg.listLeaves : List Arg → List Leaf
  | [] => []
  | a :: rest => a.leaves ++ Arg.listLeaves rest

end

@[simp] theorem Value.leaves_callable (c : Callable) : (Value.callable c).leaves = c.leaves := by
  simp only [Value.leaves]

@[simp] theorem Callable.leaves_function (f : Function) :
    (Callable.function f).leaves = [.function f] := by
  simp only [Callable.leaves]

@[simp] theorem Callable.leaves_builtin (b : Builtin) (stamp : Nat) :
    (Callable.builtin b stamp).leaves = [.builtin b] := by
  simp only [Callable.leaves]

@[simp] theorem Arg.leaves_value (v : Value) : (Arg.value v).leaves = v.leaves := by
  simp only [Arg.leaves]

@[simp] theorem Arg.leaves_view (w : View) : (Arg.view w).leaves = [.view w] := by
  simp only [Arg.leaves]

theorem Arg.listLeaves_eq (args : List Arg) : Arg.listLeaves args = args.flatMap Arg.leaves := by
  induction args with
  | nil => simp only [Arg.listLeaves, List.flatMap_nil]
  | cons a rest inductionHypothesis =>
    simp only [Arg.listLeaves, List.flatMap_cons, inductionHypothesis]

@[simp] theorem Callable.leaves_bound (callee : Callable) (args : List Arg) (stamp : Nat) :
    (Callable.bound callee args stamp).leaves = callee.leaves ++ args.flatMap Arg.leaves := by
  simp only [Callable.leaves, Arg.listLeaves_eq]

/-- A leaf that is made of known views: any function of a program, a standard native function, or
one of the views. -/
def Leaf.Known (known : View → Prop) : Leaf → Prop
  | .function _ => True
  | .builtin b => b ∈ Builtin.standard
  | .view w => known w

def Arg.Known (known : View → Prop) (a : Arg) : Prop := ∀ l ∈ a.leaves, l.Known known

theorem Arg.Known.mono {known more : View → Prop} {a : Arg} (known' : a.Known known)
    (wider : ∀ w, known w → more w) : a.Known more := by
  intro l member
  have leaf := known' l member
  cases l with
  | function f => trivial
  | builtin b => exact leaf
  | view w => exact wider w leaf

theorem Arg.known_view {known : View → Prop} {w : View} : (Arg.view w).Known known ↔ known w := by
  simp only [Arg.Known, Arg.leaves_view, List.mem_singleton, forall_eq, Leaf.Known]

theorem Arg.known_function {known : View → Prop} (f : Function) :
    (Arg.value (.callable (.function f))).Known known := by
  intro l member
  rw [Arg.leaves_value, Value.leaves_callable, Callable.leaves_function] at member
  rw [List.mem_singleton.mp member]
  trivial

theorem Arg.known_builtin {known : View → Prop} {b : Builtin} {stamp : Nat} :
    (Arg.value (.callable (.builtin b stamp))).Known known ↔ b ∈ Builtin.standard := by
  simp only [Arg.Known, Arg.leaves_value, Value.leaves_callable, Callable.leaves_builtin,
    List.mem_singleton, forall_eq, Leaf.Known]

theorem Arg.known_of_constant {known : View → Prop} {v : Value} (empty : v.leaves = []) :
    (Arg.value v).Known known := by
  intro l member
  rw [Arg.leaves_value, empty] at member
  cases member

namespace Value

/-! ## Constants -/

/-- Whether a value is no callable. -/
def IsConstant (v : Value) : Prop := v.kind ≠ .callable

theorem IsConstant.leaves {v : Value} (constant : v.IsConstant) : v.leaves = [] := by
  cases v with
  | callable c => exact absurd rfl constant
  | none | string _ | int _ | flt _ | bool _ => simp only [Value.leaves]

theorem isConstant_ofLiteral (value : Literal) : (ofLiteral value).IsConstant := by
  cases value <;> exact nofun

end Value

/-- Whether an operation, if it gives a value, gives a constant. -/
def GivesConstant (outcome : Except Cause Value) : Prop :=
  ∀ v, outcome = .ok v → v.IsConstant

theorem GivesConstant.ok {v : Value} (constant : v.IsConstant) : GivesConstant (.ok v) := by
  rintro _ ⟨⟩
  exact constant

theorem GivesConstant.error (cause : Cause) : GivesConstant (.error cause) := nofun

/-- An exact result is an integer. -/
theorem exists_int_of_checked {n : Int} {v : Value} (given : checked n = .ok v) :
    ∃ k, v = .int k := by
  unfold checked at given
  split at given <;> cases given
  exact ⟨_, rfl⟩

theorem checked_givesConstant (n : Int) : GivesConstant (checked n) := by
  unfold checked
  split
  · exact .ok nofun
  · exact .error _

theorem UnaryOp.apply_givesConstant (op : UnaryOp) (v : Value) : GivesConstant (op.apply v) := by
  unfold UnaryOp.apply
  split
  · exact checked_givesConstant _
  · exact .ok nofun
  · exact .ok nofun
  · exact .error _

namespace Text

theorem concatenate_givesConstant (left right : Value) : GivesConstant (concatenate left right) := by
  unfold concatenate
  split
  · exact .error _
  · exact .error _
  · exact .ok nofun

theorem repetition_givesConstant [Memory] (s : String) (count : Int64) :
    GivesConstant (repetition s count) := by
  unfold repetition
  cases repeatCount count with
  | error cause => exact .error cause
  | ok n =>
    change GivesConstant (if _ then _ else _)
    split
    · exact .ok nofun
    · split
      · exact .ok nofun
      · exact .error _

end Text

namespace BinaryOp

theorem onIntegers_givesConstant (op : BinaryOp) (a b : Int64) :
    GivesConstant (op.onIntegers a b) := by
  unfold onIntegers
  split
  · exact checked_givesConstant _
  · exact checked_givesConstant _
  · exact checked_givesConstant _
  · split
    · exact .error _
    · exact checked_givesConstant _
  · exact .error _

theorem onNumbers_givesConstant (op : BinaryOp) (left right : Value) :
    GivesConstant (op.onNumbers left right) := by
  unfold onNumbers
  split
  · exact onIntegers_givesConstant op _ _
  · exact .ok nofun
  · exact .error _

theorem arithmetic_givesConstant [Memory] (op : BinaryOp) (left right : Value) :
    GivesConstant (op.arithmetic left right) := by
  unfold arithmetic
  split
  · exact Text.concatenate_givesConstant _ _
  · exact Text.concatenate_givesConstant _ _
  · exact Text.repetition_givesConstant _ _
  · exact Text.repetition_givesConstant _ _
  · exact onNumbers_givesConstant op _ _

theorem comparison_givesConstant (op : BinaryOp) (left right : Value) :
    GivesConstant (op.comparison left right) := by
  unfold comparison
  split
  · exact .ok nofun
  · exact .error _

theorem logic_givesConstant (op : BinaryOp) (left right : Value) :
    GivesConstant (op.logic left right) := by
  unfold logic
  split
  · exact .ok nofun
  · exact .ok nofun
  · exact .error _

theorem apply_givesConstant [Memory] (op : BinaryOp) (left right : Value) :
    GivesConstant (op.apply left right) := by
  cases op <;> simp only [apply]
  case add | sub | mul | div => exact arithmetic_givesConstant _ left right
  case less | greater | atMost | atLeast | equal | unequal =>
    exact comparison_givesConstant _ left right
  case and | or => exact logic_givesConstant _ left right
  case decorate => exact .error _

end BinaryOp

namespace Value

/-! ## Types -/

/-- Whether a value is of exactly the kind that a type asks for.  No value is of type `void`. -/
def hasType : Value → Ty → Bool
  | .int _, .base .int _ => true
  | .flt _, .base .flt _ => true
  | .string _, .base .string _ => true
  | .bool _, .base .bool _ => true
  | .callable c, .func ret params => c.signature = ⟨ret, params⟩
  | _, _ => false

theorem isVoid_of_hasType {v : Value} {t : Ty} (typed : v.hasType t = true) :
    t.isVoid = false := by
  cases t with
  | func ret params => rfl
  | base b mutable =>
    cases b with
    | void => cases v <;> cases typed
    | int | flt | string | bool => rfl

/-- Mutability makes no difference to what a variable may hold. -/
theorem hasType_of_sameShape {v : Value} {t u : Ty} (typed : v.hasType t = true)
    (same : u.sameShape t = true) : v.hasType u = true := by
  cases t with
  | func ret params =>
    cases u with
    | func ret' params' => rwa [show Ty.func ret' params' = _ from of_decide_eq_true same]
    | base b mutable => cases same
  | base b mutable =>
    cases u with
    | func ret params => cases same
    | base b' mutable' =>
      -- Shapes of base types agree if the bases do, and only the base is asked for.
      obtain rfl : b' = b := of_decide_eq_true same
      cases v <;> cases b' <;> first | rfl | cases typed

theorem exists_int_of_hasType {v : Value} {mutable : Bool}
    (typed : v.hasType (.base .int mutable) = true) : ∃ n, v = .int n := by
  cases v with
  | int n => exact ⟨n, rfl⟩
  | none | string _ | flt _ | bool _ | callable _ => cases typed

theorem exists_string_of_hasType {v : Value} {mutable : Bool}
    (typed : v.hasType (.base .string mutable) = true) : ∃ s, v = .string s := by
  cases v with
  | string s => exact ⟨s, rfl⟩
  | none | int _ | flt _ | bool _ | callable _ => cases typed

theorem hasType_int {n k : Int64} {t : Ty} (typed : (Value.int n).hasType t = true) :
    (Value.int k).hasType t = true := by
  cases t with
  | func ret params => exact typed
  | base b mutable => cases b <;> exact typed

/-- A base type is a type of constants. -/
theorem isConstant_of_hasType {v : Value} {b : Base} {mutable : Bool}
    (typed : v.hasType (.base b mutable) = true) : v.IsConstant := by
  cases v with
  | callable c => cases typed
  | none | string _ | int _ | flt _ | bool _ => exact nofun

theorem hasType_of_cast {v w : Value} {t : Ty} (given : v.cast t = .ok w) :
    w.hasType t = true := by
  -- Every cast ends in a value of the kind it is named for, or fails.
  cases t with
  | func ret params =>
    simp only [cast, castFunc] at given
    split at given
    · split at given
      · cases given
        simpa only [hasType, decide_eq_true_eq]
      · cases given
    · cases given
  | base b mutable =>
    cases b with
    | int =>
      simp only [cast, castInt] at given
      split at given
      · cases given; rfl
      · split at given <;> cases given
        rfl
      · cases given; rfl
      · cases given
    | flt =>
      simp only [cast, castFlt] at given
      split at given <;> cases given <;> rfl
    | string =>
      simp only [cast, castString] at given
      split at given <;> cases given
      rfl
    | bool =>
      simp only [cast, castBool] at given
      split at given <;> cases given
      rfl
    | void => cases given

/-- A cast to a function type leaves a callable as it is. -/
theorem eq_of_cast_func {v w : Value} {ret : Ty} {params : List Ty}
    (given : v.cast (.func ret params) = .ok w) : w = v := by
  simp only [cast, castFunc] at given
  split at given
  · split at given <;> cases given
    rfl
  · cases given

theorem mem_leaves_of_cast {v w : Value} {t : Ty} (given : v.cast t = .ok w) {l : Leaf}
    (member : l ∈ w.leaves) : l ∈ v.leaves := by
  cases t with
  | func ret params => rwa [eq_of_cast_func given] at member
  | base b mutable =>
    rw [(isConstant_of_hasType (hasType_of_cast given)).leaves] at member
    cases member

theorem hasType_of_default {v : Value} {t : Ty} (given : Value.default t = .ok v) :
    v.hasType t = true := by
  unfold Value.default at given
  split at given <;> cases given <;> rfl

theorem isConstant_of_default {v : Value} {t : Ty} (given : Value.default t = .ok v) :
    v.IsConstant := by
  unfold Value.default at given
  split at given <;> cases given <;> exact nofun

end Value

end Rightflow
