import Mathlib.Logic.Function.Basic
import Rightflow.Value

/-!
# Other names

A change of names is carried out on a whole function: on its parameters and on every name that
stands in its body, be it read, declared, assigned or iterated over.  The name of the function
itself belongs to the program and stays.

A name may be changed in a function if it is the name of a parameter, and other names mean what they
meant if no two names become one.  Such a change is a `Renaming`, and two functions of which one is
made from the other by it are `Alike`.  To give a parameter a name that does not stand in its
function is such a change (`Function.alike_rename_replacing`): inside that function it is the same
to exchange both names.
-/

namespace Rightflow

variable {ρ σ : String → String}

/-! ## Changing names -/

section

variable (ρ : String → String)

mutual

def Expr.rename : Expr → Expr
  | .literal value p => .literal value p
  | .name x p => .name (ρ x) p
  | .unary op operand p => .unary op operand.rename p
  | .binary op left right p => .binary op left.rename right.rename p
  | .call callee args p => .call callee.rename (Expr.renameAll args) p
  | .bind callee args p => .bind callee.rename (Expr.renameAll args) p

def Expr.renameAll : List Expr → List Expr
  | [] => []
  | e :: es => e.rename :: Expr.renameAll es

end

def Assignment.rename (a : Assignment) : Assignment :=
  ⟨a.value.rename ρ, a.declared?, ρ a.name, a.position⟩

def Iterator.rename : Iterator → Iterator
  | .assign a => .assign (a.rename ρ)
  | .existing x p => .existing (ρ x) p

mutual

def Stmt.rename : Stmt → Stmt
  | .assign a => .assign (a.rename ρ)
  | .run e p => .run (e.rename ρ) p
  | .giveBack e p => .giveBack (e.rename ρ) p
  | .branch cond body others p =>
    .branch (cond.rename ρ) (Stmt.renameAll body) others.rename p
  | .whileLoop cond body p => .whileLoop (cond.rename ρ) (Stmt.renameAll body) p
  | .forLoop iter cond body onIter p =>
    .forLoop (iter.rename ρ) (cond.rename ρ) (Stmt.renameAll body) (onIter.rename ρ) p

def Stmt.renameAll : Block → Block
  | [] => []
  | s :: body => s.rename :: Stmt.renameAll body

def Otherwise.rename : Otherwise → Otherwise
  | .nothing => .nothing
  | .elif cond body others p => .elif (cond.rename ρ) (Stmt.renameAll body) others.rename p
  | .block body p => .block (Stmt.renameAll body) p

end

def Param.rename (x : Param) : Param := ⟨ρ x.name, x.type⟩

def Function.rename (f : Function) : Function :=
  ⟨f.name, f.ret, f.params.map (Param.rename ρ), Stmt.renameAll ρ f.body, f.position⟩

@[simp] theorem Expr.position_rename (e : Expr) : (e.rename ρ).position = e.position := by
  cases e <;> rfl

@[simp] theorem Function.signature_rename (f : Function) :
    (f.rename ρ).signature = f.signature := by
  simp only [signature, rename, List.map_map]
  rfl

end

/-! ## The names that stand somewhere -/

mutual

def Expr.names : Expr → List String
  | .literal _ _ => []
  | .name x _ => [x]
  | .unary _ operand _ => operand.names
  | .binary _ left right _ => left.names ++ right.names
  | .call callee args _ | .bind callee args _ => Expr.namesAll args ++ callee.names

def Expr.namesAll : List Expr → List String
  | [] => []
  | e :: es => e.names ++ Expr.namesAll es

end

def Assignment.names (a : Assignment) : List String := a.name :: a.value.names

def Iterator.names : Iterator → List String
  | .assign a => a.names
  | .existing x _ => [x]

mutual

def Stmt.names : Stmt → List String
  | .assign a => a.names
  | .run e _ | .giveBack e _ => e.names
  | .branch cond body others _ => cond.names ++ (Stmt.namesAll body ++ others.names)
  | .whileLoop cond body _ => cond.names ++ Stmt.namesAll body
  | .forLoop iter cond body onIter _ =>
    iter.names ++ (cond.names ++ (Stmt.namesAll body ++ onIter.names))

def Stmt.namesAll : Block → List String
  | [] => []
  | s :: body => s.names ++ Stmt.namesAll body

def Otherwise.names : Otherwise → List String
  | .nothing => []
  | .elif cond body others _ => cond.names ++ (Stmt.namesAll body ++ others.names)
  | .block body _ => Stmt.namesAll body

end

/-- The names of the parameters, and all names in the body. -/
def Function.names (f : Function) : List String := f.params.map (·.name) ++ Stmt.namesAll f.body

/-! ### Changes that agree on them -/

mutual

theorem Expr.rename_congr : ∀ e : Expr, (∀ z ∈ e.names, ρ z = σ z) → e.rename ρ = e.rename σ
  | .literal _ _, _ => rfl
  | .name x p, agree => by
    rw [rename, rename, agree x (List.mem_singleton_self x)]
  | .unary op operand p, agree => by
    rw [rename, rename, rename_congr operand agree]
  | .binary op left right p, agree => by
    obtain ⟨onLeft, onRight⟩ := List.forall_mem_append.1 agree
    rw [rename, rename, rename_congr left onLeft, rename_congr right onRight]
  | .call callee args p, agree | .bind callee args p, agree => by
    obtain ⟨onArgs, onCallee⟩ := List.forall_mem_append.1 agree
    rw [rename, rename, rename_congr callee onCallee, renameAll_congr args onArgs]

theorem Expr.renameAll_congr :
    ∀ es : List Expr, (∀ z ∈ Expr.namesAll es, ρ z = σ z) →
      Expr.renameAll ρ es = Expr.renameAll σ es
  | [], _ => rfl
  | e :: es, agree => by
    obtain ⟨onHead, onTail⟩ := List.forall_mem_append.1 agree
    rw [renameAll, renameAll, rename_congr e onHead, renameAll_congr es onTail]

end

theorem Assignment.rename_congr (a : Assignment) (agree : ∀ z ∈ a.names, ρ z = σ z) :
    a.rename ρ = a.rename σ := by
  obtain ⟨onName, onValue⟩ := List.forall_mem_cons.1 agree
  rw [rename, rename, onName, a.value.rename_congr onValue]

theorem Iterator.rename_congr (i : Iterator) (agree : ∀ z ∈ i.names, ρ z = σ z) :
    i.rename ρ = i.rename σ := by
  cases i with
  | assign a => rw [rename, rename, a.rename_congr agree]
  | existing x p => rw [rename, rename, agree x (List.mem_singleton_self x)]

mutual

theorem Stmt.rename_congr : ∀ s : Stmt, (∀ z ∈ s.names, ρ z = σ z) → s.rename ρ = s.rename σ
  | .assign a, agree => by rw [Stmt.rename, Stmt.rename, a.rename_congr agree]
  | .run e p, agree => by rw [Stmt.rename, Stmt.rename, e.rename_congr agree]
  | .giveBack e p, agree => by rw [Stmt.rename, Stmt.rename, e.rename_congr agree]
  | .branch cond body others p, agree => by
    obtain ⟨onCond, agree⟩ := List.forall_mem_append.1 agree
    obtain ⟨onBody, onOthers⟩ := List.forall_mem_append.1 agree
    rw [Stmt.rename, Stmt.rename, cond.rename_congr onCond, Stmt.renameAll_congr body onBody,
      others.rename_congr onOthers]
  | .whileLoop cond body p, agree => by
    obtain ⟨onCond, onBody⟩ := List.forall_mem_append.1 agree
    rw [Stmt.rename, Stmt.rename, cond.rename_congr onCond, Stmt.renameAll_congr body onBody]
  | .forLoop iter cond body onIter p, agree => by
    obtain ⟨onIterator, agree⟩ := List.forall_mem_append.1 agree
    obtain ⟨onCond, agree⟩ := List.forall_mem_append.1 agree
    obtain ⟨onBody, onCall⟩ := List.forall_mem_append.1 agree
    rw [Stmt.rename, Stmt.rename, iter.rename_congr onIterator, cond.rename_congr onCond,
      Stmt.renameAll_congr body onBody, onIter.rename_congr onCall]

theorem Stmt.renameAll_congr :
    ∀ body : Block, (∀ z ∈ Stmt.namesAll body, ρ z = σ z) →
      Stmt.renameAll ρ body = Stmt.renameAll σ body
  | [], _ => rfl
  | s :: body, agree => by
    obtain ⟨onHead, onTail⟩ := List.forall_mem_append.1 agree
    rw [Stmt.renameAll, Stmt.renameAll, s.rename_congr onHead, Stmt.renameAll_congr body onTail]

theorem Otherwise.rename_congr :
    ∀ o : Otherwise, (∀ z ∈ o.names, ρ z = σ z) → o.rename ρ = o.rename σ
  | .nothing, _ => rfl
  | .elif cond body others p, agree => by
    obtain ⟨onCond, agree⟩ := List.forall_mem_append.1 agree
    obtain ⟨onBody, onOthers⟩ := List.forall_mem_append.1 agree
    rw [Otherwise.rename, Otherwise.rename, cond.rename_congr onCond,
      Stmt.renameAll_congr body onBody, others.rename_congr onOthers]
  | .block body p, agree => by
    rw [Otherwise.rename, Otherwise.rename, Stmt.renameAll_congr body agree]

end

theorem Function.rename_congr (f : Function) (agree : ∀ z ∈ f.names, ρ z = σ z) :
    f.rename ρ = f.rename σ := by
  obtain ⟨onParams, onBody⟩ := List.forall_mem_append.1 agree
  have params : f.params.map (Param.rename ρ) = f.params.map (Param.rename σ) :=
    List.map_congr_left fun x member => by
      rw [Param.rename, Param.rename, onParams x.name (List.mem_map_of_mem member)]
  rw [rename, rename, params, Stmt.renameAll_congr f.body onBody]

/-! ### The change that changes nothing -/

mutual

theorem Expr.rename_id : ∀ e : Expr, e.rename id = e
  | .literal _ _ | .name _ _ => rfl
  | .unary op operand p => by rw [rename, rename_id operand]
  | .binary op left right p => by rw [rename, rename_id left, rename_id right]
  | .call callee args p | .bind callee args p => by
    rw [rename, rename_id callee, renameAll_id args]

theorem Expr.renameAll_id : ∀ es : List Expr, Expr.renameAll id es = es
  | [] => rfl
  | e :: es => by rw [renameAll, rename_id e, renameAll_id es]

end

theorem Assignment.rename_id (a : Assignment) : a.rename id = a := by
  rw [rename, a.value.rename_id, id]

theorem Iterator.rename_id (i : Iterator) : i.rename id = i := by
  cases i with
  | assign a => rw [rename, a.rename_id]
  | existing x p => rfl

mutual

theorem Stmt.rename_id : ∀ s : Stmt, s.rename id = s
  | .assign a => by rw [Stmt.rename, a.rename_id]
  | .run e p | .giveBack e p => by rw [Stmt.rename, e.rename_id]
  | .branch cond body others p => by
    rw [Stmt.rename, cond.rename_id, Stmt.renameAll_id body, others.rename_id]
  | .whileLoop cond body p => by rw [Stmt.rename, cond.rename_id, Stmt.renameAll_id body]
  | .forLoop iter cond body onIter p => by
    rw [Stmt.rename, iter.rename_id, cond.rename_id, Stmt.renameAll_id body, onIter.rename_id]

theorem Stmt.renameAll_id : ∀ body : Block, Stmt.renameAll id body = body
  | [] => rfl
  | s :: body => by rw [Stmt.renameAll, s.rename_id, Stmt.renameAll_id body]

theorem Otherwise.rename_id : ∀ o : Otherwise, o.rename id = o
  | .nothing => rfl
  | .elif cond body others p => by
    rw [Otherwise.rename, cond.rename_id, Stmt.renameAll_id body, others.rename_id]
  | .block body p => by rw [Otherwise.rename, Stmt.renameAll_id body]

end

theorem Function.rename_id (f : Function) : f.rename id = f := by
  have params : f.params.map (Param.rename id) = f.params := List.map_id f.params
  rw [rename, params, Stmt.renameAll_id]

/-! ## Renamings -/

/-- A change of names under which no two names become one.  The names that are bound may be changed,
and are names of parameters where the change is carried out. -/
structure Renaming where
  apply : String → String
  injective : ∀ {z z' : String}, apply z = apply z' → z = z'
  bound : List String

namespace Renaming

/-- A name that the renaming may meet: it stays, or it is bound. -/
def Admits (r : Renaming) (z : String) : Prop := r.apply z = z ∨ z ∈ r.bound

def AdmitsAll (r : Renaming) (names : List String) : Prop := ∀ z ∈ names, r.Admits z

theorem AdmitsAll.append {r : Renaming} {names names' : List String}
    (admitted : r.AdmitsAll (names ++ names')) : r.AdmitsAll names ∧ r.AdmitsAll names' :=
  List.forall_mem_append.1 admitted

theorem AdmitsAll.cons {r : Renaming} {z : String} {names : List String}
    (admitted : r.AdmitsAll (z :: names)) : r.Admits z ∧ r.AdmitsAll names :=
  List.forall_mem_cons.1 admitted

/-- A function that the renaming may be carried out on. -/
structure Suits (r : Renaming) (f : Function) : Prop where
  admits : r.AdmitsAll f.names
  bound : ∀ z ∈ r.bound, z ∈ f.params.map (·.name)

def identity : Renaming := ⟨id, id, []⟩

/-- Exchanges two names, of which the first one is bound. -/
def exchange (x y : String) : Renaming where
  apply z := if z = x then y else if z = y then x else z
  injective := by grind
  bound := [x]

theorem admits_identity (z : String) : identity.Admits z := .inl rfl

theorem suits_identity (f : Function) : identity.Suits f := ⟨fun z _ => admits_identity z, nofun⟩

end Renaming

/-- Puts one name for another one. -/
def replacing (x y : String) (z : String) : String := if z = x then y else z

namespace Function

variable {f g : Function}

/-- The second function is the first one, renamed. -/
def Alike (f g : Function) : Prop := ∃ r : Renaming, r.Suits f ∧ g = f.rename r.apply

theorem Alike.refl (f : Function) : f.Alike f :=
  ⟨.identity, Renaming.suits_identity f, f.rename_id.symm⟩

theorem Alike.name (alike : f.Alike g) : g.name = f.name := by
  obtain ⟨r, -, rfl⟩ := alike
  rfl

theorem Alike.position (alike : f.Alike g) : g.position = f.position := by
  obtain ⟨r, -, rfl⟩ := alike
  rfl

theorem Alike.signature (alike : f.Alike g) : g.signature = f.signature := by
  obtain ⟨r, -, rfl⟩ := alike
  exact f.signature_rename r.apply

/-- A function is alike if a parameter has another name in it, which does not stand in it yet. -/
theorem alike_rename_replacing {x y : String} (parameter : x ∈ f.params.map (·.name))
    (fresh : y ∉ f.names) : f.Alike (f.rename (replacing x y)) := by
  have other : ∀ z ∈ f.names, z ≠ y := fun z member same => fresh (same ▸ member)
  refine ⟨.exchange x y, ⟨fun z member => ?_, ?_⟩, f.rename_congr fun z member => ?_⟩
  · by_cases same : z = x
    · exact .inr (List.mem_singleton.2 same)
    · exact .inl ((if_neg same).trans (if_neg (other z member)))
  · rintro z member
    rwa [List.mem_singleton.1 member]
  · rw [replacing, Renaming.exchange]
    dsimp only
    rw [if_neg (other z member)]

end Function

end Rightflow
