import Rightflow.Grammar.Basic

/-!
# The grammar of types

A type is a base type, `mut` and a base type other than `void`, or a function type
`[ret::param, param]`.  Nothing takes a bare `void`.
-/

namespace Rightflow.Parser

/-- The base type that a token names. -/
def baseOf? : Form → Option Base
  | .keyword (.base b) => some b
  | _ => none

/-- The type behind `mut`. -/
def mutableBase : Parser Ty := do
  let t ← next
  match baseOf? t.form with
  | some .void | none => unexpected t .mutableType
  | some b => return .base b true

/-- A type that is a single keyword. -/
def plainBase : Parser Ty := do
  let t ← next
  match baseOf? t.form with
  | some b => return .base b false
  | none => unexpected t .type

mutual

def type : Nat → Parser Ty
  | 0 => exhausted
  | n + 1 => do
    match ← peek with
    | .symbol .leftBracket => return (← signature n).toTy
    | .keyword .mutable => let _ ← next; mutableBase
    | _ => plainBase

/-- A function type. -/
def signature : Nat → Parser Signature
  | 0 => exhausted
  | n + 1 => do
    let _ ← expect (.symbol .leftBracket)
    let ret ← type n
    let _ ← expect (.symbol .signature)
    let params ← list (paramType n) .rightBracket n
    return ⟨ret, params⟩

/-- The type of a parameter in a function type. -/
def paramType : Nat → Parser Ty
  | 0 => exhausted
  | n + 1 => do
    match ← peekToken? with
    | some t => if t.form = .keyword (.base .void) then unexpected t .paramType else type n
    | none => type n

end

end Rightflow.Parser
