import Rightflow.Tree

/-!
# Trees up to positions

A tree is bare when all its positions are erased.  Two trees say the same when their bare trees are
equal.
-/

namespace Rightflow

mutual

/-- The expression with every position erased. -/
def Expr.bare : Expr → Expr
  | .literal value _ => .literal value .start
  | .name x _ => .name x .start
  | .unary op operand _ => .unary op operand.bare .start
  | .binary op left right _ => .binary op left.bare right.bare .start
  | .call callee args _ => .call callee.bare (Expr.bareAll args) .start
  | .bind callee args _ => .bind callee.bare (Expr.bareAll args) .start

def Expr.bareAll : List Expr → List Expr
  | [] => []
  | e :: es => e.bare :: Expr.bareAll es

end

@[simp] theorem Expr.bareAll_eq_map (es : List Expr) : Expr.bareAll es = es.map Expr.bare := by
  induction es with
  | nil => rfl
  | cons e es ih => rw [Expr.bareAll, ih, List.map_cons]

def Assignment.bare (a : Assignment) : Assignment := ⟨a.value.bare, a.declared?, a.name, .start⟩

def Iterator.bare : Iterator → Iterator
  | .assign a => .assign a.bare
  | .existing x _ => .existing x .start

mutual

/-- The statement with every position erased. -/
def Stmt.bare : Stmt → Stmt
  | .assign a => .assign a.bare
  | .run e _ => .run e.bare .start
  | .giveBack e _ => .giveBack e.bare .start
  | .branch cond body further _ => .branch cond.bare (Stmt.bareAll body) further.bare .start
  | .whileLoop cond body _ => .whileLoop cond.bare (Stmt.bareAll body) .start
  | .forLoop iter cond body onIter _ =>
    .forLoop iter.bare cond.bare (Stmt.bareAll body) onIter.bare .start

def Stmt.bareAll : Block → Block
  | [] => []
  | s :: body => s.bare :: Stmt.bareAll body

def Otherwise.bare : Otherwise → Otherwise
  | .nothing => .nothing
  | .elif cond body further _ => .elif cond.bare (Stmt.bareAll body) further.bare .start
  | .block body _ => .block (Stmt.bareAll body) .start

end

@[simp] theorem Stmt.bareAll_eq_map (body : Block) : Stmt.bareAll body = body.map Stmt.bare := by
  induction body with
  | nil => rfl
  | cons s body ih => rw [Stmt.bareAll, ih, List.map_cons]

def Function.bare (f : Function) : Function :=
  ⟨f.name, f.ret, f.params, Stmt.bareAll f.body, .start⟩

/-- The program with every position erased. -/
def Program.bare (p : Program) : Program := p.map Function.bare

end Rightflow
