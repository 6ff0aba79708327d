import Rightflow.Text.Lines
import Rightflow.Text.Position

/-!
# Diagnostics

A message is shown with the line that it is about, marked with `>`, a caret under the character
meant, and the lines before and behind it if there are any.  Lines are numbered from one, the
numbers aligned at three places.  Without the line, the message stands alone.
-/

namespace Rightflow.Diagnostic

/-- A text with blanks before it, to fill some places. -/
def alignRight (places : Nat) (text : String) : String :=
  String.ofList (List.replicate (places - text.length) ' ') ++ text

/-- A line of the source with its number. -/
def numbered (mark : String) (number : Nat) (line : String) : String :=
  mark ++ alignRight 3 (toString number) ++ " | " ++ line

/-- The line that points at a column of the line above it. -/
def caret (column : Nat) : String :=
  "     | " ++ String.ofList (List.replicate (column - 1) ' ') ++ "^"

/-- The lines that are shown about a line of the source and a column of it. -/
def excerpt (source : List String) (index : Nat) (line : String) (column : Nat) : List String :=
  let before := if index = 0 then none else source[index - 1]?
  (before.map (numbered " " index)).toList
    ++ numbered ">" (index + 1) line :: caret column
    :: (source[index + 1]?.map (numbered " " (index + 2))).toList

/-- A message about a position in a source, if the source is there. -/
def render (message : String) (p : Position) (source? : Option String) : String :=
  let source := source?.elim [] lines
  match if p.line = 0 then none else source[p.line - 1]? with
  | none => message
  | some line => "\n".intercalate (message :: excerpt source (p.line - 1) line p.column)

end Rightflow.Diagnostic
