import Rightflow.Grammar.Basic
import Rightflow.Tree

/-!
# The grammar of expressions

From the loosest to the tightest: `||`, `&&`, one comparison, `+ -`, `* /`, the prefixes `- !`, and
factors.  Operators of one level group to the left, and a comparison is not followed by another
one.

A factor that begins with `(` is settled behind the matching `)`: `->>` makes it the arguments of a
bind, `->` the arguments of a call, and anything else a group, which then holds one expression.  The
position of a group is that of the expression in it.
-/

namespace Rightflow

/-! ## Levels -/

/-- The binary operators that bind equally tight. -/
inductive Level where
  | or
  | and
  | comparison
  | additive
  | multiplicative
deriving DecidableEq, Repr

/-- The next tighter level. -/
def Level.tighter? : Level → Option Level
  | .or => some .and
  | .and => some .comparison
  | .comparison => some .additive
  | .additive => some .multiplicative
  | .multiplicative => none

/-- Whether an operator of the level may follow on the result of another one. -/
def Level.chains : Level → Bool
  | .comparison => false
  | _ => true

/-- The level of an operator between expressions; `@` stands between names only. -/
def BinaryOp.level? : BinaryOp → Option Level
  | .or => some .or
  | .and => some .and
  | .less | .greater | .atMost | .atLeast | .equal | .unequal => some .comparison
  | .add | .sub => some .additive
  | .mul | .div => some .multiplicative
  | .decorate => none

/-- The operator that a token means between two operands. -/
def Form.binaryOp? : Form → Option BinaryOp
  | .symbol .plus => some .add
  | .symbol .minus => some .sub
  | .symbol .times => some .mul
  | .symbol .divide => some .div
  | .symbol .less => some .less
  | .symbol .greater => some .greater
  | .symbol .atMost => some .atMost
  | .symbol .atLeast => some .atLeast
  | .symbol .equal => some .equal
  | .symbol .unequal => some .unequal
  | .symbol .and => some .and
  | .symbol .or => some .or
  | _ => none

/-- The operator of a level that a token means. -/
def Level.op? (level : Level) (form : Form) : Option BinaryOp :=
  form.binaryOp?.filter fun op => op.level? = some level

/-- The operator that a token means before an operand. -/
def Form.unaryOp? : Form → Option UnaryOp
  | .symbol .minus => some .negate
  | .symbol .not => some .not
  | _ => none

namespace Parser

/-! ## Names and decorations -/

/-- A name, or two of them with `@` between. -/
def decorated : Parser Expr := do
  let (name, position) ← identifier
  let left := Expr.name name position
  if ← accept (.symbol .decorate) then
    let (target, targetPosition) ← identifier
    return .binary .decorate left (.name target targetPosition) position
  else return left

/-- A list in parentheses that nothing follows is a group of one expression. -/
def ungroup (position : Position) : List Expr → Parser Expr
  | [e] => return e
  | es => fail (.danglingList es.length) position

/-! ## Expressions -/

mutual

/-- An expression of a level or of a tighter one. -/
def level : Nat → Level → Parser Expr
  | 0, _ => exhausted
  | n + 1, l => do
    let left ← operand n l
    furtherOperands n l left

/-- What the operators of a level stand between. -/
def operand : Nat → Level → Parser Expr
  | 0, _ => exhausted
  | n + 1, l =>
    match l.tighter? with
    | some tighter => level n tighter
    | none => unary n

/-- The operators of a level that follow `left`, with their right operands. -/
def furtherOperands : Nat → Level → Expr → Parser Expr
  | 0, _, _ => exhausted
  | n + 1, l, left => do
    match l.op? (← peek) with
    | none => return left
    | some op =>
      let _ ← next
      let right ← operand n l
      let whole := Expr.binary op left right left.position
      if l.chains then furtherOperands n l whole else return whole

def unary : Nat → Parser Expr
  | 0 => exhausted
  | n + 1 => do
    match (← peek).unaryOp? with
    | none => factor n
    | some op =>
      let t ← next
      return .unary op (← unary n) t.position

def factor : Nat → Parser Expr
  | 0 => exhausted
  | n + 1 => do
    match ← peek with
    | .literal value => return .literal value (← next).position
    | .name _ => decorated
    | .symbol .leftParen => callOrGroup n
    | _ =>
      let t ← next
      fail (.noExpression t.form) t.position

/-- A list in parentheses and what it is given to. -/
def callOrGroup : Nat → Parser Expr
  | 0 => exhausted
  | n + 1 => do
    let position ← expect (.symbol .leftParen)
    let args ← list (level n .or) .rightParen n
    if ← accept (.symbol .bindFront) then
      return .bind (← decorated) args position
    else if ← accept (.symbol .call) then
      return .call (← callee n) args position
    else ungroup position args

/-- What stands behind `->`. -/
def callee : Nat → Parser Expr
  | 0 => exhausted
  | n + 1 => do
    match ← peek with
    | .symbol .leftParen => callOrGroup n
    | _ => decorated

end

/-- An expression of any level. -/
def expression (n : Nat) : Parser Expr := level n .or

/-- An expression that is all there is. -/
def standalone (n : Nat) : Parser Expr := do
  let e ← expression n
  let _ ← expect .finish
  return e

end Parser

end Rightflow
