import Rightflow.Halt
import Rightflow.Token

/-!
# Reading a tree off a list of tokens

A `Parser` takes tokens from the front of a list and looks at no more than the first token that it
leaves.  The list behind its last token goes on for ever with the token that means the end, as far
as looking is concerned; taking a token from there is an error.

A failure keeps what is left of the list.  It names what was expected, what was found instead, and
the position of that token.
-/

namespace Rightflow

/-! ## Failures -/

/-- What the grammar allows at some place. -/
inductive Expected where
  | form (form : Form)
  | identifier
  | listEnd (closing : Symbol)
  | type
  | mutableType
  | paramType
  | assignOrSemicolon
  | iterator
deriving DecidableEq, Repr

def Expected.text : Expected → String
  | .form f => f.text
  | .identifier => "an identifier"
  | .listEnd closing => "',' or '" ++ closing.text ++ "'"
  | .type => "a type"
  | .mutableType => "a type after 'mut'"
  | .paramType => "a parameter type"
  | .assignOrSemicolon => "'=>' or ';'"
  | .iterator => "'=>' or an iterator name followed by ';'"

inductive ParseCause where
  | unexpected (expected : Expected) (found : Form)
  | endOfTokens
  | noExpression (found : Form)
  | danglingList (count : Nat)
  | voidParameter (name : String)
deriving DecidableEq, Repr

def ParseCause.text : ParseCause → String
  | .unexpected expected found => "Expected " ++ expected.text ++ ", found " ++ found.text ++ "."
  | .endOfTokens => "Expected more input, found end of input."
  | .noExpression found => "Expected an expression, found " ++ found.text ++ "."
  | .danglingList count =>
    "A list of " ++ toString count ++ " expressions must be followed by '->' or '->>'."
  | .voidParameter name => "Parameter '" ++ name ++ "' cannot have type void."

structure ParseError where
  cause : ParseCause
  position : Position
deriving DecidableEq, Repr

def ParseError.message (e : ParseError) : String :=
  "Error at " ++ e.position.text ++ ": " ++ e.cause.text

/-! ## Taking tokens -/

abbrev Parser (α : Type) := EStateM (Halt ParseError) (List Token) α

namespace Parser

variable {α : Type}

def fail (cause : ParseCause) (position : Position) : Parser α :=
  throw (.fault ⟨cause, position⟩)

def exhausted : Parser α := throw .exhausted

/-- A failure at a token that has been taken. -/
def unexpected (t : Token) (expected : Expected) : Parser α :=
  fail (.unexpected expected t.form) t.position

/-- The next token, which stays. -/
def peekToken? : Parser (Option Token) := return (← get).head?

/-- What the next token is. -/
def peek : Parser Form := return (← peekToken?).elim .finish (·.form)

/-- Where the next token stands. -/
def peekPosition : Parser Position := return (← peekToken?).elim .start (·.position)

/-- Takes the next token. -/
def next : Parser Token := do
  match ← get with
  | [] => fail .endOfTokens .start
  | t :: rest => set rest; return t

/-- Takes the next token if it is `form`. -/
def accept (form : Form) : Parser Bool := do
  match ← get with
  | [] => return false
  | t :: rest => if t.form = form then set rest; return true else return false

/-- Takes the next token, which has to be `form`, and answers its position. -/
def expect (form : Form) : Parser Position := do
  let t ← next
  if t.form = form then return t.position else unexpected t (.form form)

/-- Takes a name and answers it with its position. -/
def identifier : Parser (String × Position) := do
  let t ← next
  match t.form with
  | .name s => return (s, t.position)
  | _ => unexpected t .identifier

/-! ## Lists -/

/-- One or more items with commas between them, up to the closing symbol. -/
def items (item : Parser α) (closing : Symbol) : Nat → Parser (List α)
  | 0 => exhausted
  | n + 1 => do
    let a ← item
    let t ← next
    if t.form = .symbol .comma then return a :: (← items item closing n)
    else if t.form = .symbol closing then return [a]
    else unexpected t (.listEnd closing)

/-- Any number of items with commas between them, up to the closing symbol. -/
def list (item : Parser α) (closing : Symbol) (n : Nat) : Parser (List α) := do
  if ← accept (.symbol closing) then return [] else items item closing n

/-- Between two tokens that it takes, the grammar descends less deep than this. -/
def depth : Nat := 16

/-- Runs a bounded parser with a bound that the length of the list makes great enough. -/
def run (p : Nat → Parser α) (tokens : List Token) :
    EStateM.Result (Halt ParseError) (List Token) α :=
  EStateM.run (p (depth * (tokens.length + 1))) tokens

end Parser

end Rightflow
