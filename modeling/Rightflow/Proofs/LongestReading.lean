import Rightflow.Proofs.Cursors
import Rightflow.Token.Lexer

/-!
# Reading by the longest match

A lexeme is the longest stretch at the front of a text that is a token.  `Reading.front` looks at
all that lies ahead and reads one: it answers with the token or with the reason why there is none,
and with the number of characters taken.  It knows no states and gives nothing back, and it takes
the spellings of symbols and keywords from where messages take them.  The lexer answers the same,
which is shown in `Rightflow.Proofs.Automaton`; here is only what it is compared with.
-/

namespace Rightflow

/-- A token read, or the reason why there is none. -/
inductive Reading where
  | token (form : Form) (caution? : Option Caution)
  | fault (cause : LexCause)
deriving DecidableEq, Repr

/-! ## Spellings looked up -/

namespace Symbol

/-- All symbols, a longer spelling before a shorter one. -/
def byLength : List Symbol :=
  [.bindFront, .call, .assign, .signature, .and, .or, .atMost, .atLeast, .equal, .unequal,
   .decorate, .not, .plus, .minus, .times, .divide, .less, .greater, .leftParen, .rightParen,
   .leftBrace, .rightBrace, .leftBracket, .rightBracket, .semicolon, .comma, .wildcard]

theorem mem_byLength (s : Symbol) : s ∈ byLength := by
  cases s <;> decide

theorem byLength_sorted :
    byLength.Pairwise fun s t => t.spelling.length ≤ s.spelling.length := by
  decide

/-- The longest symbol at the front of a text. -/
def longestAt? (text : List Char) : Option Symbol :=
  byLength.find? fun s => s.spelling.isPrefixOf text

end Symbol

namespace Keyword

def all : List Keyword :=
  [.base .int, .base .flt, .base .string, .base .bool, .base .void, .mutable, .giveBack,
   .whileLoop, .forLoop, .ifBranch, .elifBranch, .elseBranch]

/-- The keyword that a word spells. -/
def ofText? (word : String) : Option Keyword := all.find? fun k => k.text = word

theorem text_of_ofText? {word : String} {k : Keyword} (h : ofText? word = some k) :
    k.text = word := by
  simpa using List.find?_some h

end Keyword

/-! ## Words -/

/-- The token that a word is: a keyword, a truth value, or a name. -/
def Form.ofWord (word : String) : Form :=
  if word = "true" then .literal (.bool true)
  else if word = "false" then .literal (.bool false)
  else match Keyword.ofText? word with
    | some k => .keyword k
    | none => .name word

/-- Only the beginning of a long word counts. -/
def Reading.ofWord (word : List Char) : Reading :=
  let kept := String.ofList (word.take nameLimit)
  .token (.ofWord kept) (if nameLimit < word.length then some (.shortened kept) else none)

/-! ## Numbers -/

/-- The number with the digits of `whole` before the point and those of `places` behind it. -/
def Numeral.ofDigits (whole places : List Char) : Numeral :=
  places.foldl pushPlace (whole.foldl pushWhole {})

/-- A number at the front of a text that begins with a digit. -/
def Reading.number (text : List Char) : Reading × Nat :=
  let whole := text.takeWhile Char.isDigit
  match text.dropWhile Char.isDigit with
  | '.' :: rest =>
    let places := rest.takeWhile Char.isDigit
    let n := Numeral.ofDigits whole places
    (.token (.literal (.flt n.toFloat)) n.caution?, whole.length + 1 + places.length)
  | _ =>
    let n := Numeral.ofDigits whole []
    (.token (.literal (.int n.toInt64)) n.caution?, whole.length)

/-! ## Strings -/

/-- The content of a string up to its closing quote, and the number of characters taken with it.
There is no content if the line or the text ends first. -/
def stringContent : List Char → Option (List Char) × Nat
  | [] => (none, 0)
  | '"' :: _ => (some [], 1)
  | '\n' :: _ => (none, 1)
  | '\\' :: [] => (none, 1)
  | '\\' :: '\n' :: _ => (none, 2)
  | '\\' :: c :: rest =>
    let (content?, n) := stringContent rest
    (content?.map (unescape c :: ·), n + 2)
  | c :: rest =>
    let (content?, n) := stringContent rest
    (content?.map (c :: ·), n + 1)

/-- A string whose opening quote stands before `text`. -/
def Reading.string (text : List Char) : Reading × Nat :=
  match stringContent text with
  | (some content, n) => (.token (.literal (.string (String.ofList content))) none, n + 1)
  | (none, n) => (.fault .unterminatedString, n + 1)

/-! ## Symbols and comments -/

/-- A comment goes on to the end of its line. -/
def commentLength (text : List Char) : Nat := (text.takeWhile (· ≠ '\n')).length

/-- The characters that only begin symbols of two.  They take the next character along even where
that one does not complete a symbol. -/
def opensPair (c : Char) : Bool := c = '=' || c = '&' || c = '|' || c = ':'

/-- A symbol or a comment at the front of a text that begins with `c`. -/
def Reading.symbol (c : Char) (rest : List Char) : Reading × Nat :=
  if ['/', '/'].isPrefixOf (c :: rest) then
    (.token .comment none, commentLength (c :: rest))
  else match Symbol.longestAt? (c :: rest) with
    | some s => (.token (.symbol s) none, s.spelling.length)
    | none =>
      (.fault (.unexpectedCharacter c), 1 + if opensPair c then (rest.take 1).length else 0)

/-! ## Any of them -/

/-- What stands at the front of a text that begins with `c`, not white space. -/
def Reading.front (c : Char) (rest : List Char) : Reading × Nat :=
  if isLetter c then
    let word := (c :: rest).takeWhile isNameChar
    (.ofWord word, word.length)
  else if c.isDigit then Reading.number (c :: rest)
  else if c = '"' then Reading.string rest
  else Reading.symbol c rest

/-! ## Tokens -/

/-- What a reading at a position amounts to. -/
def Reading.answer (p : Position) : Reading → Except LexError Scanned
  | .token form caution? => .ok (.at form caution? p)
  | .fault cause => .error ⟨cause, p⟩

/-- The next token, or why there is none, and the cursor behind what was taken. -/
def Cursor.token (cur : Cursor) : Except LexError Scanned × Cursor :=
  let start := cur.skipWhile isBlank
  match start.ahead with
  | [] => (.ok (.at .finish none start.position), start)
  | c :: rest =>
    let (reading, n) := Reading.front c rest
    (reading.answer start.position, start.skip n)

/-- The tokens up to the end of the text, at most `n` of them. -/
def Cursor.tokens : Nat → Cursor → Except LexError (List Scanned)
  | 0, _ => .ok []
  | n + 1, cur =>
    match cur.token with
    | (.error e, _) => .error e
    | (.ok scanned, next) =>
      if scanned.token.form = .finish then .ok [scanned]
      else (next.tokens n).map (scanned :: ·)

end Rightflow
