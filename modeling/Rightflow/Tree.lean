import Rightflow.Literal
import Rightflow.Text.Position
import Rightflow.Ty

/-!
# Program trees

Data flow from left to right: `expr => name;` assigns, `(args) -> callee` calls, `(args) ->> callee`
gives a function its first arguments and no more, and `f @ g` gives `g` the function `f` as its
first argument.  Every node carries a position, from which messages about it are made and on which
nothing else depends.
-/

namespace Rightflow

/-! ## Operators -/

inductive UnaryOp where
  | negate
  | not
deriving DecidableEq, Repr

def UnaryOp.text : UnaryOp → String
  | .negate => "-"
  | .not => "!"

inductive BinaryOp where
  | add
  | sub
  | mul
  | div
  | less
  | greater
  | atMost
  | atLeast
  | equal
  | unequal
  | and
  | or
  | decorate
deriving DecidableEq, Repr

def BinaryOp.text : BinaryOp → String
  | .add => "+"
  | .sub => "-"
  | .mul => "*"
  | .div => "/"
  | .less => "<"
  | .greater => ">"
  | .atMost => "<="
  | .atLeast => ">="
  | .equal => "=="
  | .unequal => "!="
  | .and => "&&"
  | .or => "||"
  | .decorate => "@"

/-! ## Expressions -/

inductive Expr where
  | literal (value : Literal) (position : Position)
  | name (name : String) (position : Position)
  | unary (op : UnaryOp) (operand : Expr) (position : Position)
  | binary (op : BinaryOp) (left right : Expr) (position : Position)
  | call (callee : Expr) (args : List Expr) (position : Position)
  | bind (callee : Expr) (args : List Expr) (position : Position)
deriving Repr, Inhabited

def Expr.position : Expr → Position
  | .literal _ p | .name _ p | .unary _ _ p | .binary _ _ _ p | .call _ _ p | .bind _ _ p => p

/-! ## Statements -/

/-- A value for a variable: a new one if a type is given, and otherwise one that exists. -/
structure Assignment where
  value : Expr
  declared? : Option Ty
  name : String
  position : Position
deriving Repr, Inhabited

/-- The variable of a loop, which the header may assign first. -/
inductive Iterator where
  | assign (assignment : Assignment)
  | existing (name : String) (position : Position)
deriving Repr, Inhabited

mutual

inductive Stmt where
  | assign (assignment : Assignment)
  | run (expr : Expr) (position : Position)
  | giveBack (value : Expr) (position : Position)
  | branch (condition : Expr) (body : List Stmt) (otherwise : Otherwise) (position : Position)
  | whileLoop (condition : Expr) (body : List Stmt) (position : Position)
  | forLoop (iterator : Iterator) (condition : Expr) (body : List Stmt) (onIter : Expr)
      (position : Position)
deriving Repr

/-- What is done where a condition does not hold. -/
inductive Otherwise where
  | nothing
  | elif (condition : Expr) (body : List Stmt) (otherwise : Otherwise) (position : Position)
  | block (body : List Stmt) (position : Position)
deriving Repr

end

abbrev Block := List Stmt

def Stmt.position : Stmt → Position
  | .assign a => a.position
  | .run _ p | .giveBack _ p | .branch _ _ _ p | .whileLoop _ _ p | .forLoop _ _ _ _ p => p

/-! ## Functions -/

structure Param where
  name : String
  type : Ty
deriving Repr, Inhabited

structure Function where
  name : String
  ret : Ty
  params : List Param
  body : Block
  position : Position
deriving Repr

/-- What the function returns and takes. -/
def Function.signature (f : Function) : Signature := ⟨f.ret, f.params.map (·.type)⟩

abbrev Program := List Function

end Rightflow
