import Rightflow.Value.Cast

/-!
# Operators on values

Numbers are integers and floats; a truth value counts as the integer zero or one.  Integer
operations are exact or fail: they never wrap.  An operation on an integer and a float is carried
out on floats.

Strings are joined with any constant, repeated, and compared by their number of characters.  A
string that is repeated needs memory all at once, and repeating it fails where that is not granted.

Each of the three families of binary operators is a function of any operator.  Among floats an
operator that is not arithmetic divides, and one that is no comparison asks whether two values
differ; the other cases have no meaning and say so.
-/

namespace Rightflow

/-! ## Numbers -/

inductive Number where
  | int (n : Int64)
  | flt (x : Float)
deriving DecidableEq, Repr

namespace Number

def ofValue? : Value → Option Number
  | .int n => some (.int n)
  | .bool b => some (.int (boolToInt b))
  | .flt x => some (.flt x)
  | .string _ | .callable _ | .none => none

def toFloat : Number → Float
  | .int n => Integer.toFloat n
  | .flt x => x

/-- Whether a number is not zero. -/
def truth : Number → Bool
  | .int n => n ≠ 0
  | .flt x => x != 0

end Number

/-- An exact result in 64 bits. -/
def checked (n : Int) : Except Cause Value :=
  match Integer.ofInt? n with
  | some m => .ok (.int m)
  | none => .error .overflow

/-! ## Strings -/

/-- The memory for the strings that a program builds: whether so many bytes are granted when they
are asked for at once.  Asked for as many again, it answers alike. -/
class Memory where
  grants : Nat → Bool

/-- Memory that grants all that a program can address, with addresses of 48 bits of which one half
is its own. -/
instance (priority := low) Memory.standard : Memory := ⟨fun size => size < 1 <<< 47⟩

namespace Text

/-- The string that joins two constants of which one is a string. -/
def concatenate (left right : Value) : Except Cause Value :=
  match left.string?, right.string? with
  | none, _ => .error (left.noCast (.base .string false))
  | some _, none => .error (right.noCast (.base .string false))
  | some s, some t => .ok (.string (s ++ t))

/-- The greatest number of bytes that a string may have: sizes are signed numbers of 64 bits. -/
def sizeLimit : Nat := (1 <<< 63) - 1

/-- `n` copies of a string, one after the other. -/
def copies (s : String) (n : Nat) : String := String.join (List.replicate n s)

/-- How often a string is repeated. -/
def repeatCount (count : Int64) : Except Cause Nat :=
  if count.toInt < 0 then .error (.negativeRepeat count) else .ok count.toInt.toNat

/-- A string repeated.  Where there is nothing to copy, no memory is asked for. -/
def repetition [Memory] (s : String) (count : Int64) : Except Cause Value := do
  let n ← repeatCount count
  if s = "" ∨ n = 0 then .ok (.string "")
  else
    let size := s.utf8ByteSize * n
    if size ≤ sizeLimit ∧ Memory.grants size then .ok (.string (copies s n))
    else .error .overflow

end Text

namespace BinaryOp

def unsupported (op : BinaryOp) (left right : Value) : Cause :=
  .unsupportedBinary op left.kind right.kind

/-! ## Arithmetic -/

/-- Division goes toward zero. -/
def onIntegers (op : BinaryOp) (a b : Int64) : Except Cause Value :=
  match op with
  | .add => checked (a.toInt + b.toInt)
  | .sub => checked (a.toInt - b.toInt)
  | .mul => checked (a.toInt * b.toInt)
  | .div => if b = 0 then .error .divisionByZero else checked (a.toInt.tdiv b.toInt)
  | op => .error (op.unsupported (.int a) (.int b))

def onFloats (op : BinaryOp) (x y : Float) : Float :=
  match op with
  | .add => x + y
  | .sub => x - y
  | .mul => x * y
  | _ => x / y

/-- Arithmetic on numbers. -/
def onNumbers (op : BinaryOp) (left right : Value) : Except Cause Value :=
  match Number.ofValue? left, Number.ofValue? right with
  | some (.int a), some (.int b) => op.onIntegers a b
  | some a, some b => .ok (.flt (op.onFloats a.toFloat b.toFloat))
  | _, _ => .error (op.unsupported left right)

/-- Arithmetic on numbers and strings. -/
def arithmetic [Memory] (op : BinaryOp) (left right : Value) : Except Cause Value :=
  match op, left, right with
  | .add, .string _, _ | .add, _, .string _ => Text.concatenate left right
  | .mul, .string s, .int n | .mul, .int n, .string s => Text.repetition s n
  | op, left, right => op.onNumbers left right

/-! ## Comparison -/

/-- How two floats compare; one that is not a number compares with none. -/
def compareFloats (x y : Float) : Option Ordering :=
  if x < y then some .lt else if y < x then some .gt else if x == y then some .eq else none

/-- How two values compare, if they are of kinds that do. -/
def compareValues? (left right : Value) : Option (Option Ordering) :=
  match left, right with
  | .string s, .string t => some (some (compare s.length t.length))
  | left, right =>
    match Number.ofValue? left, Number.ofValue? right with
    | some (.int a), some (.int b) => some (some (compare a.toInt b.toInt))
    | some a, some b => some (compareFloats a.toFloat b.toFloat)
    | _, _ => none

/-- Whether a comparison holds between values that compare in the given way, or in none. -/
def holds (op : BinaryOp) (ordering? : Option Ordering) : Bool :=
  match op, ordering? with
  | .unequal, none => true
  | _, none => false
  | .less, some o => o.isLT
  | .greater, some o => o.isGT
  | .atMost, some o => o.isLE
  | .atLeast, some o => o.isGE
  | .equal, some o => o.isEq
  | _, some o => o.isNe

def comparison (op : BinaryOp) (left right : Value) : Except Cause Value :=
  match compareValues? left right with
  | some ordering? => .ok (.bool (op.holds ordering?))
  | none => .error (op.unsupported left right)

/-! ## Logic -/

def logic (op : BinaryOp) (left right : Value) : Except Cause Value :=
  match op, left.truth?, right.truth? with
  | .and, some a, some b => .ok (.bool (a && b))
  | .or, some a, some b => .ok (.bool (a || b))
  | op, _, _ => .error (op.unsupported left right)

/-! ## All of them -/

/-- The value of an operator between two values.  `@` takes no values: it stands between names of
callables, and an expression makes of it what it means. -/
def apply [Memory] (op : BinaryOp) (left right : Value) : Except Cause Value :=
  match op with
  | .add | .sub | .mul | .div => op.arithmetic left right
  | .less | .greater | .atMost | .atLeast | .equal | .unequal => op.comparison left right
  | .and | .or => op.logic left right
  | .decorate => .error (op.unsupported left right)

end BinaryOp

/-- The value of an operator before a value. -/
def UnaryOp.apply (op : UnaryOp) (v : Value) : Except Cause Value :=
  match op, Number.ofValue? v with
  | .negate, some (.int n) => checked (-n.toInt)
  | .negate, some (.flt x) => .ok (.flt (-x))
  | .not, some n => .ok (.bool !n.truth)
  | op, none => .error (.unsupportedUnary op v.kind)

end Rightflow
