import Rightflow.Token.Lexer

/-!
# Reading all tokens of a text

`tokenize` reads a text token by token, up to the one that means its end, and gives up at the first
failure.
-/

namespace Rightflow

/-- The tokens up to the end of the text, at most `n` of them. -/
def Reader.tokens : Nat → Reader → Except LexError (List Scanned)
  | 0, _ => .ok []
  | n + 1, r =>
    match r.token with
    | (.error e, _) => .error e
    | (.ok scanned, next) =>
      if scanned.token.form = .finish then .ok [scanned]
      else (next.tokens n).map (scanned :: ·)

/-- The tokens of a text, up to the one that means its end.  Every other token takes a character,
so there is at most one token more than there are characters. -/
def tokenize (source : String) : Except LexError (List Scanned) :=
  let start := Reader.ofString source
  start.tokens (start.left + 1)

/-- The tokens without the comments. -/
def codeTokens (scanned : List Scanned) : List Token :=
  (scanned.map (·.token)).filter fun t => t.form ≠ .comment

/-- The warnings, in the order of their tokens. -/
def warnings (scanned : List Scanned) : List Warning :=
  scanned.filterMap (·.warning?)

end Rightflow
