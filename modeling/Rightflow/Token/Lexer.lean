import Rightflow.Text.Blank
import Rightflow.Text.Reader
import Rightflow.Token.Lexeme
import Rightflow.Token.Numeral
import Rightflow.Token.Table

/-!
# The lexer

The lexer is an automaton that reads a text character by character.  It starts between two tokens,
skips white space, and goes on until it meets a character that does not belong to its token, which
it gives back to the reader, or until the token is closed.  `Reader.token` is one run of it, from
wherever the reader stands.
-/

namespace Rightflow

def isLetter (c : Char) : Bool := c.isAlpha

/-- The characters that a name goes on with. -/
def isNameChar (c : Char) : Bool := c.isAlphanum || c = '_'

/-- The character that stands for itself or for another one behind a backslash. -/
def unescape : Char → Char
  | 'n' => '\n'
  | 't' => '\t'
  | c => c

namespace Lexer

/-- What has been read so far. -/
inductive State where
  | blank
  | name
  | whole
  | places
  | string
  | escape
  | mark (m : Mark)
  | longMark (m : Mark)
  | half (h : Half)
  | closed
deriving DecidableEq, Repr

/-- What is noted of the token that is being read. -/
structure Notes where
  start : Position := .start
  /-- The content of a string, or what counts of a name. -/
  text : String := ""
  /-- The length of a name, with what does not count. -/
  length : Nat := 0
  number : Numeral := {}
deriving DecidableEq, Repr

namespace Notes

def pushNameChar (notes : Notes) (c : Char) : Notes :=
  let length := notes.length + 1
  { notes with length, text := if length ≤ nameLimit then notes.text.push c else notes.text }

def pushWhole (notes : Notes) (c : Char) : Notes :=
  { notes with number := notes.number.pushWhole c }

def pushPlace (notes : Notes) (c : Char) : Notes :=
  { notes with number := notes.number.pushPlace c }

def pushContent (notes : Notes) (c : Char) : Notes :=
  { notes with text := notes.text.push c }

def shortened? (notes : Notes) : Option Caution :=
  if nameLimit < notes.length then some (.shortened notes.text) else none

def error (notes : Notes) (cause : LexCause) : LexError := ⟨cause, notes.start⟩

def scanned (notes : Notes) (form : Form) (caution? : Option Caution) : Scanned :=
  .at form caution? notes.start

end Notes

/-- The state behind the first character of a token. -/
def begin (notes : Notes) (c : Char) : Except LexError (State × Notes) :=
  if isLetter c then .ok (.name, notes.pushNameChar c)
  else if c.isDigit then .ok (.whole, notes.pushWhole c)
  else if c = '"' then .ok (.string, notes)
  else match Table.single? c with
    | some s => .ok (.mark (.symbol s), notes)
    | none =>
      match Table.half? c with
      | some h => .ok (.half h, notes)
      | none => .error (notes.error (.unexpectedCharacter c))

/-- Takes one character.  There is no next state if the token ended before it. -/
def step (notes : Notes) (c : Char) : State → Except LexError (Option (State × Notes))
  | .blank => if isBlank c then .ok (some (.blank, notes)) else (begin notes c).map some
  | .name => .ok (if isNameChar c then some (.name, notes.pushNameChar c) else none)
  | .whole =>
    .ok (if c.isDigit then some (.whole, notes.pushWhole c)
      else if c = '.' then some (.places, notes) else none)
  | .places => .ok (if c.isDigit then some (.places, notes.pushPlace c) else none)
  | .string =>
    if c = '"' then .ok (some (.closed, notes))
    else if c = '\\' then .ok (some (.escape, notes))
    else if c = '\n' then .error (notes.error .unterminatedString)
    else .ok (some (.string, notes.pushContent c))
  | .escape =>
    if c = '\n' then .error (notes.error .unterminatedString)
    else .ok (some (.string, notes.pushContent (unescape c)))
  | .mark m | .longMark m => .ok ((Table.extension? m c).map (.longMark ·, notes))
  | .half h =>
    match Table.completion? h c with
    | some s => .ok (some (.longMark (.symbol s), notes))
    | none => .error (notes.error (.unexpectedCharacter h.char))
  | .closed => .ok none

end Lexer

namespace Reader

/-- How many characters are left. -/
def left (r : Reader) : Nat := r.source.size - r.index

/-- Reads up to the next line feed, past at most so many characters. -/
def skipLineWithin : Nat → Reader → Reader
  | 0, r => r
  | n + 1, r =>
    match r.peek? with
    | none => r
    | some c => if c = '\n' then r else skipLineWithin n r.next.2

/-- Discards what is left of the line. -/
def skipLine (r : Reader) : Reader := skipLineWithin r.left r

end Reader

namespace Lexer

/-- The token that has been read when the automaton stops. -/
def made (notes : Notes) : State → Scanned
  | .name => notes.scanned (Table.formOf notes.text) notes.shortened?
  | .whole => notes.scanned (.literal (.int notes.number.toInt64)) notes.number.caution?
  | .places => notes.scanned (.literal (.flt notes.number.toFloat)) notes.number.caution?
  | .mark (.symbol s) | .longMark (.symbol s) => notes.scanned (.symbol s) none
  | .mark .comment | .longMark .comment => notes.scanned .comment none
  | .blank | .string | .escape | .half _ | .closed =>
    notes.scanned (.literal (.string notes.text)) none

/-- Where reading goes on.  A comment takes the rest of its line along. -/
def leave (r : Reader) : State → Reader
  | .longMark .comment => r.skipLine
  | _ => r

/-- Stops in front of a character that does not belong to the token, or where the token is closed.
-/
def finish (notes : Notes) (r : Reader) (state : State) : Except LexError Scanned × Reader :=
  (.ok (made notes state), leave r state)

/-- What the end of the text makes of a token that is being read. -/
def madeAtEnd (notes : Notes) (p : Position) : State → Except LexError Scanned
  | .blank => .ok (.at .finish none p)
  | .string | .escape => .error (notes.error .unterminatedString)
  | .half h => .error (notes.error (.unexpectedCharacter h.char))
  | state => .ok (made notes state)

def finishAtEnd (notes : Notes) (r : Reader) (state : State) : Except LexError Scanned × Reader :=
  (madeAtEnd notes r.position state, leave r state)

/-- Runs the automaton past at most so many characters, which are as many as are left. -/
def run : Nat → State → Notes → Reader → Except LexError Scanned × Reader
  | _, .closed, notes, r => finish notes r .string
  | 0, state, notes, r => finishAtEnd notes r state
  | n + 1, state, notes, r =>
    let notes := if state = .blank then { notes with start := r.position } else notes
    match r.next with
    | (none, r) => finishAtEnd notes r state
    | (some c, r) =>
      match step notes c state with
      | .error e => (.error e, r)
      | .ok (some (state, notes)) => run n state notes r
      | .ok none => finish notes r.unget state

end Lexer

/-- Reads the next token, or finds out why there is none, and goes on behind what was taken. -/
def Reader.token (r : Reader) : Except LexError Scanned × Reader :=
  if r.isAtEnd then Lexer.finishAtEnd {} r .blank
  else Lexer.run r.left .blank {} r

end Rightflow
