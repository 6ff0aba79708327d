import Rightflow.Fault

/-!
# Casts

A value is cast where it meets a type: at a declaration, an assignment, a parameter and a return.
Numbers and truth values are cast into each other and into strings; a string is cast to a truth
value and to itself.  A callable has the function type of its own signature and no other.
-/

namespace Rightflow

/-- An integer as a truth value, and a truth value as an integer. -/
def boolToInt (b : Bool) : Int64 := if b then 1 else 0

namespace Value

/-- The text of a constant. -/
def string? : Value → Option String
  | .string s => some s
  | .int n => some (Integer.text n)
  | .flt x => some (Positional.text x)
  | .bool b => some (boolText b)
  | .none | .callable _ => .none

/-- Whether a constant counts as true: a number that is not zero, a string that is not empty. -/
def truth? : Value → Option Bool
  | .string s => some (s ≠ "")
  | .int n => some (n ≠ 0)
  | .flt x => some (x != 0)
  | .bool b => some b
  | .none | .callable _ => .none

/-- A value cannot be cast to a type. -/
def noCast (v : Value) (t : Ty) : Cause := .noCast v.kind t

/-- The integer that a value is cast to. -/
def castInt (v : Value) (t : Ty) : Except Cause Value :=
  match v with
  | .int n => .ok (.int n)
  | .flt x => match Integer.ofFloat? x with
    | some n => .ok (.int n)
    | .none => .error (.noInteger x)
  | .bool b => .ok (.int (boolToInt b))
  | v => .error (v.noCast t)

/-- The float that a value is cast to. -/
def castFlt (v : Value) (t : Ty) : Except Cause Value :=
  match v with
  | .int n => .ok (.flt (Integer.toFloat n))
  | .flt x => .ok (.flt x)
  | .bool b => .ok (.flt (if b then 1 else 0))
  | v => .error (v.noCast t)

/-- The string that a value is cast to. -/
def castString (v : Value) (t : Ty) : Except Cause Value :=
  match v.string? with
  | some s => .ok (.string s)
  | .none => .error (v.noCast t)

/-- The truth value that a value is cast to. -/
def castBool (v : Value) (t : Ty) : Except Cause Value :=
  match v.truth? with
  | some b => .ok (.bool b)
  | .none => .error (v.noCast t)

/-- The callable that a value is cast to. -/
def castFunc (v : Value) (s : Signature) : Except Cause Value :=
  match v with
  | .callable c => if c.signature = s then .ok v else .error (v.noCast s.toTy)
  | v => .error (v.noCast s.toTy)

/-- The value of a type that a value is cast to. -/
def cast (v : Value) (t : Ty) : Except Cause Value :=
  match t with
  | .base .int _ => v.castInt t
  | .base .flt _ => v.castFlt t
  | .base .string _ => v.castString t
  | .base .bool _ => v.castBool t
  | .base .void _ => .error (v.noCast t)
  | .func ret params => v.castFunc ⟨ret, params⟩

/-- What a function that ends without a result returns. -/
def default (t : Ty) : Except Cause Value :=
  match t with
  | .base .int _ => .ok (.int 0)
  | .base .flt _ => .ok (.flt 0)
  | .base .string _ => .ok (.string "")
  | .base .bool _ => .ok (.bool false)
  | .base .void _ | .func .. => .error (noCast .none t)

/-- Whether a condition with a value holds. -/
def truth (v : Value) : Except Cause Bool :=
  match v.truth? with
  | some b => .ok b
  | .none => .error (v.noCast (.base .bool false))

/-- A condition holds exactly if its value is cast to `true`. -/
theorem cast_bool (v : Value) : v.cast (.base .bool false) = v.truth.map .bool := by
  simp only [cast, castBool, truth]
  cases v.truth? <;> rfl

end Value

end Rightflow
