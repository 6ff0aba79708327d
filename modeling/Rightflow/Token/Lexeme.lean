import Rightflow.Token

/-!
# What comes of reading a token

A token is read with the position of its first character.  Where none can be read there is a cause;
where one is read that does not keep all of its spelling there is a caution.
-/

namespace Rightflow

/-- Why no token stands somewhere. -/
inductive LexCause where
  | unexpectedCharacter (found : Char)
  | unterminatedString
deriving DecidableEq, Repr

def LexCause.text : LexCause → String
  | .unexpectedCharacter c => "Unexpected character '" ++ c.toString ++ "'."
  | .unterminatedString => "Unterminated string literal."

/-- What a token does not keep of its spelling. -/
inductive Caution where
  | clamped
  | shortened (kept : String)
deriving DecidableEq, Repr

/-- The number of characters of a name that count. -/
def nameLimit : Nat := 32

def Caution.text : Caution → String
  | .clamped => "Numeric literal is too large and was clamped."
  | .shortened kept =>
    "Identifier exceeds " ++ toString nameLimit ++ " characters and was truncated to '" ++ kept
      ++ "'."

/-- Why a text is not made of tokens, and where the lexeme begins at which reading stopped. -/
structure LexError where
  cause : LexCause
  position : Position
deriving DecidableEq, Repr

def LexError.message (e : LexError) : String :=
  "Error at " ++ e.position.text ++ ": " ++ e.cause.text

/-- A caution and the position of its token. -/
structure Warning where
  caution : Caution
  position : Position
deriving DecidableEq, Repr

def Warning.message (w : Warning) : String :=
  "Warning at " ++ w.position.text ++ ": " ++ w.caution.text

/-- A token as it was read. -/
structure Scanned where
  token : Token
  warning? : Option Warning := none
deriving DecidableEq, Repr

/-- A token at a position, and the caution about it. -/
def Scanned.at (form : Form) (caution? : Option Caution) (p : Position) : Scanned :=
  ⟨⟨form, p⟩, caution?.map (⟨·, p⟩)⟩

end Rightflow
