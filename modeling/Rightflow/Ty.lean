/-!
# Types

A type is a base type, which a variable may hold mutably, or a function type.  Function types are
compared by structure.  A reference may be taken at a base type that differs in mutability only
(`Ty.sameShape`), and a function type never is mutable.

A type is written as it is read: `mut int`, `[flt::int, mut bool]`.
-/

namespace Rightflow

inductive Base where
  | int
  | flt
  | string
  | bool
  | void
deriving DecidableEq, Repr, Inhabited

/-- The keyword of a base type. -/
def Base.text : Base → String
  | .int => "int"
  | .flt => "flt"
  | .string => "string"
  | .bool => "bool"
  | .void => "void"

inductive Ty where
  | base (b : Base) (mutable : Bool)
  | func (ret : Ty) (params : List Ty)
deriving Repr

instance : Inhabited Ty := ⟨.base .void false⟩

/-- What a function returns and what it takes. -/
structure Signature where
  ret : Ty
  params : List Ty
deriving Repr, Inhabited

namespace Ty

/-! ## Equality -/

mutual

def decEq : (t u : Ty) → Decidable (t = u)
  | .base b m, .base c n =>
    if h : b = c ∧ m = n then isTrue (by rw [h.1, h.2])
    else isFalse fun e => h (by injection e with hb hm; exact ⟨hb, hm⟩)
  | .func r ps, .func s qs =>
    match decEq r s, decEqList ps qs with
    | isTrue hr, isTrue hp => isTrue (by rw [hr, hp])
    | isFalse hr, _ => isFalse fun e => hr (by injection e)
    | _, isFalse hp => isFalse fun e => hp (by injection e)
  | .base .., .func .. => isFalse nofun
  | .func .., .base .. => isFalse nofun

def decEqList : (ts us : List Ty) → Decidable (ts = us)
  | [], [] => isTrue rfl
  | t :: ts, u :: us =>
    match decEq t u, decEqList ts us with
    | isTrue ht, isTrue hs => isTrue (by rw [ht, hs])
    | isFalse ht, _ => isFalse fun e => ht (by injection e)
    | _, isFalse hs => isFalse fun e => hs (by injection e)
  | [], _ :: _ => isFalse nofun
  | _ :: _, [] => isFalse nofun

end

instance : DecidableEq Ty := decEq

/-! ## Questions about a type -/

/-- Whether nothing can be held at the type. -/
def isVoid : Ty → Bool
  | .base .void _ => true
  | _ => false

/-- Whether a variable of the type may be assigned again. -/
def isMutable : Ty → Bool
  | .base _ mutable => mutable
  | .func .. => false

/-- Whether two types agree but for the mutability of a base type. -/
def sameShape : Ty → Ty → Bool
  | .base b _, .base c _ => b = c
  | .func r ps, .func s qs => Ty.func r ps = .func s qs
  | _, _ => false

@[simp] theorem isMutable_func (r : Ty) (ps : List Ty) : (Ty.func r ps).isMutable = false := rfl

@[simp] theorem sameShape_self (t : Ty) : t.sameShape t = true := by
  cases t <;> simp [sameShape]

/-! ## Text -/

mutual

/-- The pieces in which a type is written. -/
def pieces : Ty → List String
  | .base b mutable => if mutable then ["mut ", b.text] else [b.text]
  | .func ret params => "[" :: ret.pieces ++ "::" :: listPieces params ++ ["]"]

/-- The pieces of a list of types with commas between them. -/
def listPieces : List Ty → List String
  | [] => []
  | t :: rest => t.pieces ++ furtherPieces rest

/-- The pieces of the types that stand behind another one. -/
def furtherPieces : List Ty → List String
  | [] => []
  | t :: rest => ", " :: t.pieces ++ furtherPieces rest

end

def text (t : Ty) : String := String.join t.pieces

end Ty

namespace Signature

/-- The type of the functions with a signature. -/
def toTy (s : Signature) : Ty := .func s.ret s.params

/-- What is left to give when the first `n` arguments are given. -/
def withoutLeading (s : Signature) (n : Nat) : Signature := ⟨s.ret, s.params.drop n⟩

instance : DecidableEq Signature := fun s t =>
  decidable_of_iff (s.ret = t.ret ∧ s.params = t.params) (by cases s; cases t; simp)

def pieces (s : Signature) : List String := s.toTy.pieces

def text (s : Signature) : String := s.toTy.text

@[simp] theorem withoutLeading_zero (s : Signature) : s.withoutLeading 0 = s := rfl

theorem withoutLeading_add (s : Signature) (m n : Nat) :
    s.withoutLeading (m + n) = (s.withoutLeading m).withoutLeading n := by
  simp [withoutLeading, List.drop_drop]

end Signature

end Rightflow
