import Rightflow.Literal
import Rightflow.Text.Position
import Rightflow.Ty

/-!
# Tokens

A token is what a program text is made of, with the position of its first character.  Symbols and
keywords have a fixed spelling; names and literals carry their content.  Comments are tokens too,
which the grammar never sees, and a token that means the end of the text closes every list.
-/

namespace Rightflow

/-! ## Symbols -/

/-- Operators and punctuation. -/
inductive Symbol where
  | bindFront
  | call
  | assign
  | decorate
  | signature
  | not
  | plus
  | minus
  | times
  | divide
  | and
  | or
  | atMost
  | atLeast
  | equal
  | unequal
  | less
  | greater
  | leftParen
  | rightParen
  | leftBrace
  | rightBrace
  | leftBracket
  | rightBracket
  | semicolon
  | comma
  | wildcard
deriving DecidableEq, Repr

namespace Symbol

/-- The characters of a symbol. -/
def spelling : Symbol → List Char
  | .bindFront => ['-', '>', '>']
  | .call => ['-', '>']
  | .assign => ['=', '>']
  | .decorate => ['@']
  | .signature => [':', ':']
  | .not => ['!']
  | .plus => ['+']
  | .minus => ['-']
  | .times => ['*']
  | .divide => ['/']
  | .and => ['&', '&']
  | .or => ['|', '|']
  | .atMost => ['<', '=']
  | .atLeast => ['>', '=']
  | .equal => ['=', '=']
  | .unequal => ['!', '=']
  | .less => ['<']
  | .greater => ['>']
  | .leftParen => ['(']
  | .rightParen => [')']
  | .leftBrace => ['\x7b']
  | .rightBrace => ['\x7d']
  | .leftBracket => ['[']
  | .rightBracket => [']']
  | .semicolon => [';']
  | .comma => [',']
  | .wildcard => ['_']

def text (s : Symbol) : String := String.ofList s.spelling

end Symbol

/-! ## Keywords -/

inductive Keyword where
  | base (b : Base)
  | mutable
  | giveBack
  | whileLoop
  | forLoop
  | ifBranch
  | elifBranch
  | elseBranch
deriving DecidableEq, Repr

namespace Keyword

def text : Keyword → String
  | .base b => b.text
  | .mutable => "mut"
  | .giveBack => "ret"
  | .whileLoop => "while"
  | .forLoop => "for"
  | .ifBranch => "if"
  | .elifBranch => "elif"
  | .elseBranch => "else"

end Keyword

/-! ## Tokens -/

/-- What a token is, wherever it stands. -/
inductive Form where
  | symbol (s : Symbol)
  | keyword (k : Keyword)
  | name (s : String)
  | literal (l : Literal)
  | comment
  | finish
deriving DecidableEq, Repr, Inhabited

/-- A token as a message shows it. -/
def Form.text : Form → String
  | .symbol s => "'" ++ s.text ++ "'"
  | .keyword k => "'" ++ k.text ++ "'"
  | .name s => "'" ++ s ++ "'"
  | .literal l => l.text
  | .comment => "'comment'"
  | .finish => "'end of input'"

structure Token where
  form : Form
  position : Position
deriving DecidableEq, Repr, Inhabited

end Rightflow
