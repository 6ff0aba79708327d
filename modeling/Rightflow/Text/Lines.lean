/-!
# Lines

A text is a sequence of lines, each ended by a line feed or by the end of the text.  One carriage
return before the line feed belongs to the end of the line, and nothing stands behind a final line
feed.
-/

namespace Rightflow

/-- The lines of a text, without their ends. -/
def splitLines : List Char → List (List Char)
  | [] => []
  | '\r' :: '\n' :: rest => [] :: splitLines rest
  | '\n' :: rest => [] :: splitLines rest
  | c :: rest =>
    match splitLines rest with
    | [] => [[c]]
    | line :: later => (c :: line) :: later

/-- The lines of a source text. -/
def lines (source : String) : List String :=
  (splitLines source.toList).map String.ofList

end Rightflow
