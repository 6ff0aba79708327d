import Rightflow.Fault
import Rightflow.Grammar.Program
import Rightflow.Token.Scan

/-!
# Reading source texts

A source text is read in two steps, into tokens and into a tree, and either may fail.  `Error` is
what may go wrong with a program from its text to its result.
-/

namespace Rightflow

/-! ## Errors -/

inductive Error where
  | lexical (e : LexError)
  | grammatical (e : ParseError)
  | runtime (e : Fault)
deriving DecidableEq, Repr

namespace Error

def message : Error → String
  | .lexical e => e.message
  | .grammatical e => e.message
  | .runtime e => e.message

def position? : Error → Option Position
  | .lexical e => some e.position
  | .grammatical e => some e.position
  | .runtime e => e.position?

end Error

/-! ## Texts -/

/-- The tree that a parser reads off the front of a list of tokens. -/
def Parser.result {α : Type} (p : Nat → Parser α) (tokens : List Token) :
    Except (Halt Error) α :=
  match Parser.run p tokens with
  | .ok a _ => .ok a
  | .error halt _ => .error (halt.map .grammatical)

/-- The tree that a parser reads off a text without its comments, and the warnings about it. -/
def parseText {α : Type} (p : Nat → Parser α) (source : String) :
    Except (Halt Error) (α × List Warning) :=
  match tokenize source with
  | .error e => .error (.fault (.lexical e))
  | .ok scanned => do
    let a ← Parser.result p (codeTokens scanned)
    return (a, warnings scanned)

/-- The program that a text is. -/
def parseProgram (source : String) : Except (Halt Error) (Program × List Warning) :=
  parseText Parser.program source

/-- The expression that a text is. -/
def parseExpression (source : String) : Except (Halt Error) Expr :=
  (·.1) <$> parseText Parser.standalone source

end Rightflow
