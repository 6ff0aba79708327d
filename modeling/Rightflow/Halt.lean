/-!
# Ends without a result

A bounded computation ends in a result, in a fault of what it works on, or because its bound is
reached.  The last says nothing about the work: with a greater bound it would have gone on.
-/

namespace Rightflow

inductive Halt (ε : Type) where
  | fault (e : ε)
  | exhausted
deriving DecidableEq, Repr

/-- The same end, its fault seen as another one. -/
def Halt.map {ε φ : Type} (f : ε → φ) : Halt ε → Halt φ
  | .fault e => .fault (f e)
  | .exhausted => .exhausted

end Rightflow
