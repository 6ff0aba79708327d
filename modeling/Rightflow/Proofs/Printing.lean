import Rightflow.Proofs.ProgramGrammar
import Rightflow.Proofs.Spelling

/-!
# Trees as text

A tree is printed as forms, with parentheses only around an operand that holds together looser than
its place asks for, and around what is called unless it is a name, a decoration, a call or a bind.
`Program.text` writes these forms down.  What can be printed (`Program.Printable`) are the trees of
the shape that the parser can build, without floats and without negative literals.
-/

namespace Rightflow

/-! ## Trees that the parser can build -/

/-- No `void` is mutable, and none is taken by a function. -/
inductive Ty.Printable : Ty → Prop where
  | base (b : Base) : Printable (.base b false)
  | mutable {b : Base} (held : b ≠ .void) : Printable (.base b true)
  | func {ret : Ty} {params : List Ty} (returned : ret.Printable)
      (taken : ∀ t ∈ params, Printable t) (held : ∀ t ∈ params, t ≠ .base .void false) :
      Printable (.func ret params)

/-- A name or a decoration, which stands between names. -/
inductive Expr.IsTarget : Expr → Prop where
  | name {x : String} (isName : IsName x) (p : Position) : IsTarget (.name x p)
  | decorated {x y : String} (isName : IsName x) (isName' : IsName y) (p q r : Position) :
      IsTarget (.binary .decorate (.name x p) (.name y q) r)

/-- Anything is called, and arguments are bound to a name or to a decoration. -/
inductive Expr.Printable : Expr → Prop where
  | literal {value : Literal} (printable : value.Printable) (p : Position) :
      Printable (.literal value p)
  | target {e : Expr} (isTarget : e.IsTarget) : Printable e
  | unary {operand : Expr} (op : UnaryOp) (printable : operand.Printable) (p : Position) :
      Printable (.unary op operand p)
  | binary {op : BinaryOp} {l : Level} {left right : Expr} (level : op.level? = some l)
      (first : left.Printable) (second : right.Printable) (p : Position) :
      Printable (.binary op left right p)
  | call {callee : Expr} {args : List Expr} (called : callee.Printable)
      (given : ∀ e ∈ args, Printable e) (p : Position) : Printable (.call callee args p)
  | bind {callee : Expr} {args : List Expr} (target : callee.IsTarget)
      (given : ∀ e ∈ args, Printable e) (p : Position) : Printable (.bind callee args p)

structure Assignment.Printable (a : Assignment) : Prop where
  value : a.value.Printable
  declared : ∀ t, a.declared? = some t → t.Printable
  name : IsName a.name

inductive Iterator.Printable : Iterator → Prop where
  | assign {a : Assignment} (printable : a.Printable) : Printable (.assign a)
  | existing {x : String} (isName : IsName x) (p : Position) : Printable (.existing x p)

/-- Statements, branches and blocks are of any shape that their types allow. -/
inductive Phrase.Printable : Phrase → Prop where
  | assign {a : Assignment} (printable : a.Printable) : Printable (.statement (.assign a))
  | run {e : Expr} (printable : e.Printable) (p : Position) : Printable (.statement (.run e p))
  | giveBack {e : Expr} (printable : e.Printable) (p : Position) :
      Printable (.statement (.giveBack e p))
  | branch {cond : Expr} {body : Block} {further : Otherwise} (condition : cond.Printable)
      (block : Printable (.block body)) (branches : Printable (.otherwise further)) (p : Position) :
      Printable (.statement (.branch cond body further p))
  | whileLoop {cond : Expr} {body : Block} (condition : cond.Printable)
      (block : Printable (.block body)) (p : Position) :
      Printable (.statement (.whileLoop cond body p))
  | forLoop {iter : Iterator} {cond onIter : Expr} {body : Block} (header : iter.Printable)
      (condition : cond.Printable) (block : Printable (.block body)) (callee : onIter.Printable)
      (p : Position) : Printable (.statement (.forLoop iter cond body onIter p))
  | nothing : Printable (.otherwise .nothing)
  | elif {cond : Expr} {body : Block} {further : Otherwise} (condition : cond.Printable)
      (block : Printable (.block body)) (branches : Printable (.otherwise further)) (p : Position) :
      Printable (.otherwise (.elif cond body further p))
  | otherwise {body : Block} (block : Printable (.block body)) (p : Position) :
      Printable (.otherwise (.block body p))
  | block {body : Block} (statements : ∀ s ∈ body, Printable (.statement s)) :
      Printable (.block body)

structure Param.Printable (param : Param) : Prop where
  type : param.type.Printable
  held : param.type.isVoid = false
  name : IsName param.name

structure Function.Printable (f : Function) : Prop where
  name : IsName f.name
  ret : f.ret.Printable
  params : ∀ param ∈ f.params, param.Printable
  body : Phrase.Printable (.block f.body)

/-- A program tree of the shape that the parser can build. -/
def Program.Printable (p : Program) : Prop := ∀ f ∈ p, f.Printable

/-! ## The printer -/

mutual

def Ty.printed : Ty → List Form
  | .base b mutable => (if mutable then [.keyword .mutable] else []) ++ [.keyword (.base b)]
  | .func ret params =>
    .symbol .leftBracket :: (ret.printed ++
      .symbol .signature :: (commaSeparated (Ty.printedAll params) ++ [.symbol .rightBracket]))

def Ty.printedAll : List Ty → List (List Form)
  | [] => []
  | t :: ts => t.printed :: Ty.printedAll ts

end

theorem Ty.printedAll_eq_map (ts : List Ty) : Ty.printedAll ts = ts.map Ty.printed := by
  induction ts with
  | nil => rfl
  | cons t ts ih => rw [Ty.printedAll, ih, List.map_cons]

def UnaryOp.symbol : UnaryOp → Symbol
  | .negate => .minus
  | .not => .not

def BinaryOp.symbol : BinaryOp → Symbol
  | .add => .plus
  | .sub => .minus
  | .mul => .times
  | .div => .divide
  | .less => .less
  | .greater => .greater
  | .atMost => .atMost
  | .atLeast => .atLeast
  | .equal => .equal
  | .unequal => .unequal
  | .and => .and
  | .or => .or
  | .decorate => .decorate

/-- How tight the kinds of expression hold together, from the loosest on. -/
def Tier.order : Tier → Nat
  | .level l => l.rank
  | .unary => 6
  | .factor => 7
  | .callee | .parenthesized => 8

theorem Level.operands_order (l : Level) : l.operands.order = l.rank + 1 := by
  cases l <;> rfl

/-- The tightest kind of expression that a tree is without parentheses around it. -/
def Expr.tier : Expr → Tier
  | .literal .. | .name .. => .factor
  | .unary .. => .unary
  | .binary op _ _ _ => op.level?.elim .factor .level
  | .call .. | .bind .. => .parenthesized

/-- Whether a tree stands at a place without parentheses: it holds together tight enough, or it is a
name, a decoration, a call or a bind that is called. -/
def Expr.fits (e : Expr) : Tier → Bool
  | .callee =>
    match e with
    | .name .. | .call .. | .bind .. => true
    | .binary op _ _ _ => op.level?.isNone
    | .literal .. | .unary .. => false
  | place => place.order ≤ e.tier.order

theorem Expr.fits_eq_decide {place : Tier} (notCallee : place ≠ .callee) (e : Expr) :
    e.fits place = decide (place.order ≤ e.tier.order) := by
  cases place with
  | callee => exact absurd rfl notCallee
  | level | unary | factor | parenthesized => rfl

/-- Forms, in parentheses unless they hold together without. -/
def parenthesizedUnless (holds : Bool) (fs : List Form) : List Form :=
  if holds then fs else .symbol .leftParen :: (fs ++ [.symbol .rightParen])

mutual

def Expr.printed : Expr → List Form
  | .literal value _ => [.literal value]
  | .name x _ => [.name x]
  | .unary op operand _ =>
    .symbol op.symbol ::
      parenthesizedUnless (operand.fits .unary) operand.printed
  | .binary op left right _ =>
    match op.level? with
    | some l =>
      parenthesizedUnless (left.fits l.leading) left.printed ++
        .symbol op.symbol :: parenthesizedUnless (right.fits l.operands) right.printed
    | none => left.printed ++ .symbol op.symbol :: right.printed
  | .call callee args _ =>
    .symbol .leftParen :: (commaSeparated (Expr.printedAll args) ++ .symbol .rightParen ::
      .symbol .call :: parenthesizedUnless (callee.fits .callee) callee.printed)
  | .bind callee args _ =>
    .symbol .leftParen :: (commaSeparated (Expr.printedAll args) ++ .symbol .rightParen ::
      .symbol .bindFront :: callee.printed)

def Expr.printedAll : List Expr → List (List Form)
  | [] => []
  | e :: es => e.printed :: Expr.printedAll es

end

theorem Expr.printedAll_eq_map (es : List Expr) : Expr.printedAll es = es.map Expr.printed := by
  induction es with
  | nil => rfl
  | cons e es ih => rw [Expr.printedAll, ih, List.map_cons]

def Assignment.printed (a : Assignment) : List Form :=
  a.value.printed ++
    .symbol .assign :: (a.declared?.elim [] Ty.printed ++ [.name a.name, .symbol .semicolon])

def Iterator.printed : Iterator → List Form
  | .assign a => a.printed
  | .existing x _ => [.name x, .symbol .semicolon]

/-- Stretches of forms in braces. -/
def inBraces (stretches : List (List Form)) : List Form :=
  .symbol .leftBrace :: (stretches.flatten ++ [.symbol .rightBrace])

mutual

def Stmt.printed : Stmt → List Form
  | .assign a => a.printed
  | .run e _ => e.printed ++ [.symbol .semicolon]
  | .giveBack e _ => .keyword .giveBack :: (e.printed ++ [.symbol .semicolon])
  | .branch cond body further _ =>
    .keyword .ifBranch :: .symbol .leftParen :: (cond.printed ++ .symbol .rightParen ::
      (inBraces (Stmt.printedAll body) ++ further.printed))
  | .whileLoop cond body _ =>
    .keyword .whileLoop :: .symbol .leftParen :: (cond.printed ++ .symbol .rightParen ::
      inBraces (Stmt.printedAll body))
  | .forLoop iter cond body onIter _ =>
    .keyword .forLoop :: .symbol .leftParen :: (iter.printed ++ (cond.printed ++
      .symbol .rightParen :: (inBraces (Stmt.printedAll body) ++
        .symbol .call :: (parenthesizedUnless (onIter.fits .callee) onIter.printed ++
          [.symbol .semicolon]))))

def Stmt.printedAll : Block → List (List Form)
  | [] => []
  | s :: body => s.printed :: Stmt.printedAll body

def Otherwise.printed : Otherwise → List Form
  | .nothing => []
  | .elif cond body further _ =>
    .keyword .elifBranch :: .symbol .leftParen :: (cond.printed ++ .symbol .rightParen ::
      (inBraces (Stmt.printedAll body) ++ further.printed))
  | .block body _ =>
    .keyword .elseBranch :: inBraces (Stmt.printedAll body)

end

theorem Stmt.printedAll_eq_map (body : Block) :
    Stmt.printedAll body = body.map Stmt.printed := by
  induction body with
  | nil => rfl
  | cons s body ih => rw [Stmt.printedAll, ih, List.map_cons]

def Phrase.printed : Phrase → List Form
  | .statement s => s.printed
  | .otherwise o => o.printed
  | .block body => inBraces (Stmt.printedAll body)

def Param.printed (param : Param) : List Form := param.type.printed ++ [.name param.name]

def Function.printed (f : Function) : List Form :=
  f.ret.printed ++ .name f.name ::
    ((if f.params = [] then []
      else .symbol .signature :: commaSeparated (f.params.map Param.printed)) ++
      inBraces (Stmt.printedAll f.body))

def Program.printed (p : Program) : List Form := p.flatMap Function.printed

/-- The text of a program. -/
def Program.text (p : Program) : String := String.ofList (spaced p.printed)

end Rightflow
