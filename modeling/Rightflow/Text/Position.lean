/-!
# Positions in a source text

A position is a line and a column, both counted from one.  Only a line feed starts a new line, and
a column counts characters, whatever their width in bytes.  `Position.after` is the position that
is reached by reading a text; reading two texts one after the other is reading their concatenation
(`Position.after_append`).
-/

namespace Rightflow

structure Position where
  line : Nat := 1
  column : Nat := 1
deriving DecidableEq, Repr, Inhabited

namespace Position

/-- The beginning of every text. -/
def start : Position := ⟨1, 1⟩

/-- The position behind a character that stands at `p`. -/
def advance (p : Position) (c : Char) : Position :=
  if c = '\n' then ⟨p.line + 1, 1⟩ else ⟨p.line, p.column + 1⟩

/-- The position behind a text that begins at `p`. -/
def after (p : Position) (text : List Char) : Position :=
  text.foldl advance p

/-- The line and the column as they stand in a message. -/
def text (p : Position) : String :=
  toString p.line ++ ":" ++ toString p.column

@[simp] theorem after_nil (p : Position) : p.after [] = p := rfl

@[simp] theorem after_cons (p : Position) (c : Char) (cs : List Char) :
    p.after (c :: cs) = (p.advance c).after cs := rfl

theorem after_append (p : Position) (xs ys : List Char) :
    p.after (xs ++ ys) = (p.after xs).after ys :=
  List.foldl_append ..

end Position

end Rightflow
