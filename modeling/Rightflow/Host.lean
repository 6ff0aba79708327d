import Rightflow.Operation
import Rightflow.Sink
import Rightflow.Store

/-!
# Hosts

A program runs on a host.  The host grants memory for strings, and it may bring native functions
beside those of the language.  What these do is not known here: a host is a parameter of whatever
depends on it, and statements that hold of every host say so.

A function of the host is given the arguments as its parameters take them, the position of the call
and the sink, and through views it comes by variables.  It gets to see neither the frames nor the
function table.
-/

namespace Rightflow

/-- What a native function leaves behind: its value or its fault, the store and the sink. -/
structure Reply where
  outcome : Except Fault Value
  store : Store
  sink : Sink

/-- The memory and the native functions that programs run with.  A native function goes by a number.
It may give variables other values, create variables and make callables, but variables that exist
stay, under their names and with their types; and it may write, but what is written stays. -/
class Host extends Memory where
  run : Nat → List Arg → Position → Store → Sink → Reply
  grows : ∀ code args p (s : Store) (k : Sink), s.Grows (run code args p s k).store
  writes : ∀ code args p (s : Store) (k : Sink), k.Extends (run code args p s k).sink

/-- A host that brings no functions: to call one does nothing. -/
instance (priority := low) Host.standard [memory : Memory] : Host where
  toMemory := memory
  run _ _ _ s k := ⟨.ok .none, s, k⟩
  grows _ _ _ s _ := .refl s
  writes _ _ _ _ k := .refl k

end Rightflow
