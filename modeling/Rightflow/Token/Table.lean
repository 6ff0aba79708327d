import Rightflow.Token

/-!
# The tables of the lexer

Which characters are operators, which of them grow with the character behind them, and which words
are reserved.  How a symbol or a keyword is shown in a message is not looked up here: `Symbol.text`
and `Keyword.text` are tables of their own.
-/

namespace Rightflow

/-- A character that is only ever the first half of a symbol. -/
inductive Half where
  | equals
  | ampersand
  | pipe
  | colon
deriving DecidableEq, Repr

def Half.char : Half → Char
  | .equals => '='
  | .ampersand => '&'
  | .pipe => '|'
  | .colon => ':'

/-- What characters that are no letters, digits or quotes may have been read as: a symbol, or the
beginning of a comment. -/
inductive Mark where
  | symbol (s : Symbol)
  | comment
deriving DecidableEq, Repr

/-- A word that is no name. -/
inductive Reserved where
  | keyword (k : Keyword)
  | truth
deriving DecidableEq, Repr

namespace Table

/-- The characters that are a symbol alone. -/
def singles : List (Char × Symbol) :=
  [('-', .minus), ('+', .plus), ('*', .times), ('/', .divide), ('@', .decorate), ('!', .not),
   ('>', .greater), ('<', .less), ('(', .leftParen), (')', .rightParen), ('\x7b', .leftBrace),
   ('\x7d', .rightBrace), ('[', .leftBracket), (']', .rightBracket), (';', .semicolon),
   (',', .comma), ('_', .wildcard)]

/-- The characters that only begin symbols of two. -/
def halves : List (Char × Half) :=
  [('=', .equals), ('&', .ampersand), ('|', .pipe), (':', .colon)]

/-- The characters that complete a half. -/
def completions : List (Half × Char × Symbol) :=
  [(.equals, '>', .assign), (.equals, '=', .equal), (.ampersand, '&', .and), (.pipe, '|', .or),
   (.colon, ':', .signature)]

/-- The characters that make a symbol a longer one, or a comment.  The longest symbol takes two of
these steps. -/
def extensions : List (Mark × Char × Mark) :=
  [(.symbol .minus, '>', .symbol .call), (.symbol .call, '>', .symbol .bindFront),
   (.symbol .not, '=', .symbol .unequal), (.symbol .greater, '=', .symbol .atLeast),
   (.symbol .less, '=', .symbol .atMost), (.symbol .divide, '/', .comment)]

def reservedWords : List (String × Reserved) :=
  [("int", .keyword (.base .int)), ("flt", .keyword (.base .flt)),
   ("string", .keyword (.base .string)), ("bool", .keyword (.base .bool)),
   ("void", .keyword (.base .void)), ("mut", .keyword .mutable), ("ret", .keyword .giveBack),
   ("while", .keyword .whileLoop), ("for", .keyword .forLoop), ("if", .keyword .ifBranch),
   ("elif", .keyword .elifBranch), ("else", .keyword .elseBranch), ("true", .truth),
   ("false", .truth)]

def single? (c : Char) : Option Symbol := (singles.find? (·.1 = c)).map (·.2)

def half? (c : Char) : Option Half := (halves.find? (·.1 = c)).map (·.2)

def completion? (h : Half) (c : Char) : Option Symbol :=
  (completions.find? fun entry => entry.1 = h ∧ entry.2.1 = c).map (·.2.2)

def extension? (m : Mark) (c : Char) : Option Mark :=
  (extensions.find? fun entry => entry.1 = m ∧ entry.2.1 = c).map (·.2.2)

def reserved? (word : String) : Option Reserved :=
  (reservedWords.find? (·.1 = word)).map (·.2)

/-- The token that a word is. -/
def formOf (word : String) : Form :=
  match reserved? word with
  | some .truth => .literal (.bool (word = "true"))
  | some (.keyword k) => .keyword k
  | none => .name word

end Table

end Rightflow
