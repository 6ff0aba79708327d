import Rightflow.Tree

/-!
# Values

A value is a constant or a callable.  A callable is a function of the program, a native function, or
another callable with its first arguments bound; each argument is a value, or a view of a variable
that lives on while the callable does.

A callable is the same as another one only if it is that very object.  Functions of the program are
told apart by their names, which a function table holds once; all other callables bear a stamp that
they are given when they are made.
-/

namespace Rightflow

/-! ## Kinds -/

/-- The kinds of values, as messages name them. -/
inductive Kind where
  | none
  | string
  | int
  | flt
  | bool
  | callable
deriving DecidableEq, Repr

def Kind.text : Kind → String
  | .none => "none"
  | .string => "string"
  | .int => "int"
  | .flt => "flt"
  | .bool => "bool"
  | .callable => "callable"

/-! ## Values, callables and arguments -/

/-- A way to a variable: its number, the name it goes by here, and whether it may be assigned from
here. -/
structure View where
  cell : Nat
  name : String
  mutable : Bool
deriving DecidableEq, Repr

/-- What a native function does. -/
inductive Native where
  /-- Writes its first argument to the output. -/
  | write
  /-- Adds one to the integer variable that it is given. -/
  | increment
  /-- Does what a function of the host does, which goes by a number. -/
  | foreign (code : Nat)
deriving DecidableEq, Repr

structure Builtin where
  name : String
  signature : Signature
  native : Native
deriving Repr

mutual

inductive Value where
  | none
  | string (s : String)
  | int (n : Int64)
  | flt (x : Float)
  | bool (b : Bool)
  | callable (c : Callable)

inductive Callable where
  | function (f : Function)
  | builtin (b : Builtin) (stamp : Nat)
  | bound (callee : Callable) (args : List Arg) (stamp : Nat)

inductive Arg where
  | value (v : Value)
  | view (w : View)

end

instance : Inhabited Value := ⟨.none⟩

/-! ## Callables -/

namespace Callable

/-- The name of the function that is called in the end. -/
def name : Callable → String
  | .function f => f.name
  | .builtin b _ => b.name
  | .bound callee _ _ => callee.name

/-- What a callable returns, and what it still takes. -/
def signature : Callable → Signature
  | .function f => f.signature
  | .builtin b _ => b.signature
  | .bound callee args _ => callee.signature.withoutLeading args.length

/-- Whether two callables are one object. -/
def same : Callable → Callable → Bool
  | .function f, .function g => f.name = g.name
  | .builtin _ m, .builtin _ n => m = n
  | .bound _ _ m, .bound _ _ n => m = n
  | _, _ => false

def pieces (c : Callable) : List String :=
  "<" :: c.name :: " " :: c.signature.pieces ++ [">"]

@[simp] theorem name_bound (c : Callable) (args : List Arg) (stamp : Nat) :
    (bound c args stamp).name = c.name := rfl

@[simp] theorem signature_bound (c : Callable) (args : List Arg) (stamp : Nat) :
    (bound c args stamp).signature = c.signature.withoutLeading args.length := rfl

end Callable

/-! ## Values -/

namespace Value

def kind : Value → Kind
  | .none => .none
  | .string _ => .string
  | .int _ => .int
  | .flt _ => .flt
  | .bool _ => .bool
  | .callable _ => .callable

/-- The value of a literal. -/
def ofLiteral : Literal → Value
  | .int n => .int n
  | .flt x => .flt x
  | .string s => .string s
  | .bool b => .bool b

/-- Whether two values are of one kind and equal.  Floats are compared as numbers, so that no value
is equal to the one that is not a number. -/
def same : Value → Value → Bool
  | .none, .none => true
  | .string s, .string t => s = t
  | .int m, .int n => m = n
  | .flt x, .flt y => x == y
  | .bool b, .bool c => b = c
  | .callable c, .callable d => c.same d
  | _, _ => false

/-- The pieces of the digits of an integer. -/
def intPieces (n : Int64) : List String :=
  if n.toInt < 0 then ["-", toString n.toInt.natAbs] else [toString n.toInt.natAbs]

/-- The pieces in which a value is written. -/
def pieces : Value → List String
  | .none => ["none"]
  | .string s => [s]
  | .int n => intPieces n
  | .flt x => Positional.pieces x
  | .bool b => [boolText b]
  | .callable c => c.pieces

def text (v : Value) : String := String.join v.pieces

end Value

end Rightflow
