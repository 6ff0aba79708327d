import Rightflow.Grammar.Expression
import Rightflow.Grammar.Type

/-!
# The grammar of statements

A statement is told by its keyword; without one it is an expression that is assigned
(`expr => type name;`, `expr => name;`) or only evaluated (`expr;`).  The header of a loop with an
iterator is an assignment or the name of a variable, either of them ended by a semicolon.
-/

namespace Rightflow.Parser

/-! ## Parts -/

/-- A condition in parentheses. -/
def condition (n : Nat) : Parser Expr := do
  let _ ← expect (.symbol .leftParen)
  let e ← expression n
  let _ ← expect (.symbol .rightParen)
  return e

/-- Whether a token begins a type. -/
def startsType : Form → Bool
  | .keyword (.base _) | .keyword .mutable | .symbol .leftBracket => true
  | _ => false

/-- What follows on the value of an assignment. -/
def assignmentTail (n : Nat) (value : Expr) (position : Position) : Parser Assignment := do
  let _ ← expect (.symbol .assign)
  let declared? ← if startsType (← peek) then some <$> type n else pure none
  let (name, _) ← identifier
  let _ ← expect (.symbol .semicolon)
  return ⟨value, declared?, name, position⟩

def iterator (n : Nat) : Parser Iterator := do
  let position ← peekPosition
  let e ← expression n
  if (← peek) = .symbol .assign then
    return .assign (← assignmentTail n e position)
  else
    let t ← next
    match e with
    | .name name position =>
      if t.form = .symbol .semicolon then return .existing name position
      else unexpected t .iterator
    | _ => unexpected t .iterator

def assignOrRun (n : Nat) : Parser Stmt := do
  let position ← peekPosition
  let e ← expression n
  if (← peek) = .symbol .assign then
    return .assign (← assignmentTail n e position)
  else
    let t ← next
    if t.form = .symbol .semicolon then return .run e position
    else unexpected t .assignOrSemicolon

def giveBack (n : Nat) : Parser Stmt := do
  let position ← expect (.keyword .giveBack)
  let value ← expression n
  let _ ← expect (.symbol .semicolon)
  return .giveBack value position

/-! ## Statements and blocks -/

mutual

def statement : Nat → Parser Stmt
  | 0 => exhausted
  | n + 1 => do
    match ← peek with
    | .keyword .ifBranch =>
      let position ← expect (.keyword .ifBranch)
      let cond ← condition n
      let body ← block n
      return .branch cond body (← otherwise n) position
    | .keyword .whileLoop =>
      let position ← expect (.keyword .whileLoop)
      let cond ← condition n
      return .whileLoop cond (← block n) position
    | .keyword .forLoop =>
      let position ← expect (.keyword .forLoop)
      let _ ← expect (.symbol .leftParen)
      let iter ← iterator n
      let cond ← expression n
      let _ ← expect (.symbol .rightParen)
      let body ← block n
      let _ ← expect (.symbol .call)
      let onIter ← callee n
      let _ ← expect (.symbol .semicolon)
      return .forLoop iter cond body onIter position
    | .keyword .giveBack => giveBack n
    | _ => assignOrRun n

/-- The branches that follow on the first one. -/
def otherwise : Nat → Parser Otherwise
  | 0 => exhausted
  | n + 1 => do
    match ← peek with
    | .keyword .elifBranch =>
      let position ← expect (.keyword .elifBranch)
      let cond ← condition n
      let body ← block n
      return .elif cond body (← otherwise n) position
    | .keyword .elseBranch =>
      let position ← expect (.keyword .elseBranch)
      return .block (← block n) position
    | _ => return .nothing

/-- Statements in braces. -/
def block : Nat → Parser Block
  | 0 => exhausted
  | n + 1 => do
    let _ ← expect (.symbol .leftBrace)
    let body ← statements n
    let _ ← expect (.symbol .rightBrace)
    return body

/-- Statements up to a closing brace or the end. -/
def statements : Nat → Parser Block
  | 0 => exhausted
  | n + 1 => do
    match ← peek with
    | .symbol .rightBrace | .finish => return []
    | _ =>
      let s ← statement n
      return s :: (← statements n)

end

/-- Statements up to the end. -/
def statementsToEnd : Nat → Parser Block
  | 0 => exhausted
  | n + 1 => do
    match ← peek with
    | .finish => return []
    | _ =>
      let s ← statement n
      return s :: (← statementsToEnd n)

end Rightflow.Parser
