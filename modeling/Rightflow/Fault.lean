import Rightflow.Value

/-!
# Faults

What can go wrong while a program runs.  Operations on values answer with a `Cause`; the position is
added where the program asked for the operation.  One fault has no position: a program without a
function to begin with.
-/

namespace Rightflow

/-- Why a sink did not take what it was given. -/
inductive Refusal where
  | full
  | flush
  /-- What a function of the host reports, in words of its own. -/
  | reported (details : String)
deriving DecidableEq, Repr

def Refusal.text : Refusal → String
  | .full => "sink full"
  | .flush => "flush failed"
  | .reported details => details

inductive Cause where
  | unknownName (name : String)
  | notCallable (found : Kind)
  | argumentCount (name : String) (expected found : Nat)
  | referenceType (name : String) (expected found : Ty)
  | immutableReference (name : String)
  | immutableAssignment (name : String)
  | undeclaredAssignment (name : String)
  | alreadyDeclared (name : String)
  | voidVariable (name : String)
  | noCast (source : Kind) (target : Ty)
  | noInteger (x : Float)
  | unsupportedBinary (op : BinaryOp) (left right : Kind)
  | unsupportedUnary (op : UnaryOp) (operand : Kind)
  | negativeRepeat (count : Int64)
  | overflow
  | divisionByZero
  | alreadyDefined (name : String)
  | builtinRedefined (name : String)
  | mainResult (found : Kind)
  | output (refusal : Refusal)
deriving DecidableEq, Repr

def Cause.text : Cause → String
  | .unknownName name => "Unknown identifier '" ++ name ++ "'."
  | .notCallable found => "A value of type " ++ found.text ++ " is not callable."
  | .argumentCount name expected found =>
    "'" ++ name ++ "' expects " ++ toString expected ++ " argument(s), but " ++ toString found
      ++ " were given."
  | .referenceType name expected found =>
    "Type-mismatched reference for parameter '" ++ name ++ "': expected " ++ expected.text
      ++ ", found " ++ found.text ++ ". Did you want to pass by value?"
  | .immutableReference name =>
    "Cannot pass immutable variable '" ++ name ++ "' to a mutable parameter."
  | .immutableAssignment name => "Cannot reassign immutable variable '" ++ name ++ "'."
  | .undeclaredAssignment name => "Cannot reassign undeclared variable '" ++ name ++ "'."
  | .alreadyDeclared name => "Variable '" ++ name ++ "' is already declared in this block."
  | .voidVariable name => "Variable '" ++ name ++ "' cannot have type void."
  | .noCast source target => "Cannot cast " ++ source.text ++ " to " ++ target.text ++ "."
  | .noInteger x =>
    "Cannot cast " ++ Kind.flt.text ++ " " ++ Positional.text x ++ " to " ++ Base.int.text ++ "."
  | .unsupportedBinary op left right =>
    "Operator '" ++ op.text ++ "' is not supported between " ++ left.text ++ " and " ++ right.text
      ++ "."
  | .unsupportedUnary op operand =>
    "Operator '" ++ op.text ++ "' is not supported for " ++ operand.text ++ "."
  | .negativeRepeat count => "Cannot repeat a string " ++ Integer.text count ++ " times."
  | .overflow => "Integer overflow."
  | .divisionByZero => "Division by zero."
  | .alreadyDefined name => "Function '" ++ name ++ "' is already defined."
  | .builtinRedefined name => "Cannot redefine builtin function '" ++ name ++ "'."
  | .mainResult found => "'main' must return int, but returned " ++ found.text ++ "."
  | .output refusal => "Failed to write output: " ++ refusal.text

inductive Fault where
  | located (position : Position) (cause : Cause)
  | missingMain
deriving DecidableEq, Repr

namespace Fault

def position? : Fault → Option Position
  | .located p _ => some p
  | .missingMain => none

def message : Fault → String
  | .located p cause => "Error at " ++ p.text ++ ": " ++ cause.text
  | .missingMain => "Error: The program does not define a 'main' function."

end Fault

/-- The outcome of an operation asked for at a position. -/
def located {α : Type} (p : Position) : Except Cause α → Except Fault α :=
  Except.mapError (.located p)

end Rightflow
