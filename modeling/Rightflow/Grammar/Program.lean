import Rightflow.Grammar.Statement

/-!
# The grammar of programs

A program is a sequence of functions, and a function is `type name :: type param, type param`
followed by a block.  Without parameters the `::` may be left out.
-/

namespace Rightflow.Parser

/-- A parameter, which holds something. -/
def param (n : Nat) : Parser Param := do
  let position ← peekPosition
  let ty ← type n
  let (name, _) ← identifier
  if ty.isVoid then fail (.voidParameter name) position else return ⟨name, ty⟩

/-- One or more parameters with commas between them. -/
def params : Nat → Parser (List Param)
  | 0 => exhausted
  | n + 1 => do
    let p ← param n
    if ← accept (.symbol .comma) then return p :: (← params n) else return [p]

/-- The parameters of a function that may have none. -/
def paramList (n : Nat) : Parser (List Param) := do
  if ← accept (.symbol .signature) then
    if (← peek) = .symbol .leftBrace then return [] else params n
  else return []

def function (n : Nat) : Parser Function := do
  let position ← peekPosition
  let ret ← type n
  let (name, _) ← identifier
  let ps ← paramList n
  let body ← block n
  return ⟨name, ret, ps, body, position⟩

/-- Functions up to the end. -/
def functions : Nat → Parser (List Function)
  | 0 => exhausted
  | n + 1 => do
    match ← peek with
    | .finish => return []
    | _ =>
      let f ← function n
      return f :: (← functions n)

/-- Functions, and nothing behind them. -/
def program (n : Nat) : Parser Program := do
  let fs ← functions n
  let _ ← expect .finish
  return fs

end Rightflow.Parser
