import Rightflow.Number.Positional

/-!
# Literals

The constants that a program can write down.  Their text here is the one that stands in a message:
a string between quotes, with its characters as they are.
-/

namespace Rightflow

inductive Literal where
  | int (n : Int64)
  | flt (x : Float)
  | string (s : String)
  | bool (b : Bool)
deriving DecidableEq, Repr, Inhabited

/-- The two truth values as they are written. -/
def boolText (b : Bool) : String := if b then "true" else "false"

def Literal.text : Literal → String
  | .int n => Integer.text n
  | .flt x => Positional.text x
  | .string s => "\"" ++ s ++ "\""
  | .bool b => boolText b

end Rightflow
