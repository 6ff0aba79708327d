import Rightflow.Diagnostic

/-!
# What a diagnostic shows

Below its message a diagnostic shows the line before the one that it is about, this line with a
caret under it, and the line behind it, as far as they are there, each with its own number.

The number of the marked line may make the text before it longer, while the text before the caret is
of one length.  So the caret stands under its character exactly up to line 999
(`carets_stand_under_their_characters`).
-/

namespace Rightflow

/-! ## Lines -/

theorem newline_not_mem_splitLines (text : List Char) : ∀ line ∈ splitLines text, '\n' ∉ line := by
  induction text using splitLines.induct with
  | case1 => simp [splitLines]
  | case2 rest inductionHypothesis | case3 rest inductionHypothesis =>
    simpa [splitLines] using inductionHypothesis
  | case4 c rest notReturn notFeed nothing inductionHypothesis =>
    rw [splitLines.eq_4 c rest notReturn notFeed, nothing]
    simpa using Ne.symm notFeed
  | case5 c rest notReturn notFeed line later more inductionHypothesis =>
    rw [splitLines.eq_4 c rest notReturn notFeed, more]
    rw [more] at inductionHypothesis
    simpa [Ne.symm notFeed] using inductionHypothesis

theorem newline_not_mem_of_mem_lines {source line : String} (mem : line ∈ lines source) :
    '\n' ∉ line.toList := by
  obtain ⟨cs, split, rfl⟩ := List.mem_map.1 mem
  rw [String.toList_ofList]
  exact newline_not_mem_splitLines source.toList cs split

namespace Diagnostic

variable {message source line mark : String} {p : Position} {number column places : Nat}

theorem newline_not_mem_numbered (unmarked : '\n' ∉ mark.toList) (unbroken : '\n' ∉ line.toList) :
    '\n' ∉ (numbered mark number line).toList := by
  have digits : '\n' ∉ (toString number).toList := by
    rw [Nat.toString_eq_repr, Nat.toList_repr]
    intro mem
    exact absurd (Nat.isDigit_of_mem_toDigits (by decide) (by decide) mem) (by decide)
  have blanks (n : Nat) : '\n' ∉ List.replicate n ' ' := by simp
  simp only [numbered, alignRight, String.toList_append, String.toList_ofList, List.mem_append,
    unmarked, blanks, digits, unbroken, or_false, false_or]
  decide

theorem newline_not_mem_caret : '\n' ∉ (caret column).toList := by
  simp [caret]

/-! ## Columns -/

theorem length_alignRight (text : String) :
    (alignRight places text).length = max places text.length := by
  simp [alignRight]
  omega

/-- Where the character at the column stands in the marked line. -/
def offset (p : Position) : Nat := (numbered ">" p.line "").length + (p.column - 1)

theorem length_numbered : (numbered mark number "").length =
    mark.length + max 3 (toString number).length + 3 := by
  have bar : " | ".length = 3 := rfl
  simp only [numbered, length_alignRight, String.length_append, String.length_empty, bar]

theorem numbered_eq_append : numbered mark number line = numbered mark number "" ++ line := by
  simp [numbered, String.append_assoc]

theorem getElem?_numbered_offset {c : Char} (inside : line.toList[p.column - 1]? = some c) :
    (numbered ">" p.line line).toList[offset p]? = some c := by
  rw [numbered_eq_append, String.toList_append, offset, ← String.length_toList,
    List.getElem?_append_right (Nat.le_add_right _ _), Nat.add_sub_cancel_left, inside]

theorem idxOf_caret : (caret column).toList.idxOf '^' = 7 + (column - 1) := by
  have before : '^' ∉ ("     | " ++ String.ofList (List.replicate (column - 1) ' ')).toList := by
    simp
  have width : ("     | " ++ String.ofList (List.replicate (column - 1) ' ')).toList.length =
      7 + (column - 1) := by
    simp
    omega
  have first : "^".toList.idxOf '^' = 0 := by decide
  rw [caret, String.toList_append, List.idxOf_append, if_neg before, width, first, Nat.zero_add]

/-- The caret stands at the offset of its character as long as the number fits into its places. -/
theorem idxOf_caret_eq_offset_iff :
    (caret p.column).toList.idxOf '^' = offset p ↔ p.line < 1000 := by
  have fits : (toString p.line).length ≤ 3 ↔ p.line < 1000 :=
    Nat.length_repr_le_iff (by decide)
  have mark : ">".length = 1 := rfl
  rw [idxOf_caret, offset, length_numbered, ← fits, mark]
  omega

/-! ## The whole excerpt -/

/-- The line with a number, counted from one, shown with that number if it is there. -/
def neighbour (source : List String) (number : Nat) : List String :=
  if number = 0 then [] else (source[number - 1]?.map (numbered " " number)).toList

theorem mem_neighbour_iff {source : List String} {shown : String} :
    shown ∈ neighbour source number ↔
      0 < number ∧ ∃ l, source[number - 1]? = some l ∧ shown = numbered " " number l := by
  unfold neighbour
  split
  next zero => simp [zero]
  next positive =>
    simp only [Option.mem_toList, Option.map_eq_some_iff, Nat.pos_of_ne_zero positive, true_and]
    exact exists_congr fun l => and_congr_right fun _ => eq_comm

theorem excerpt_eq (source : List String) (positive : 0 < p.line) :
    excerpt source (p.line - 1) line column =
      neighbour source (p.line - 1) ++
        numbered ">" p.line line :: caret column :: neighbour source (p.line + 1) := by
  have number : p.line - 1 + 1 = p.line := Nat.sub_add_cancel positive
  have next : p.line - 1 + 2 = p.line + 1 := by omega
  unfold excerpt neighbour
  rw [number, next, if_neg (Nat.succ_ne_zero _), Nat.add_sub_cancel]
  split <;> rfl

/-- The lines of a diagnostic are the message and the lines of the excerpt. -/
theorem splitOn_render (unbroken : '\n' ∉ message.toList) (positive : 0 < p.line)
    (found : (lines source)[p.line - 1]? = some line) :
    (render message p (some source)).toList.splitOn '\n' =
      (message :: (neighbour (lines source) (p.line - 1) ++
        numbered ">" p.line line :: caret p.column ::
          neighbour (lines source) (p.line + 1))).map String.toList := by
  have shown : render message p (some source) =
      "\n".intercalate (message :: excerpt (lines source) (p.line - 1) line p.column) := by
    simp only [render, Option.elim_some, Nat.pos_iff_ne_zero.1 positive, if_false, found]
  have ofLine {mark l : String} {k number : Nat} (unmarked : '\n' ∉ mark.toList)
      (there : (lines source)[k]? = some l) : '\n' ∉ (numbered mark number l).toList :=
    newline_not_mem_numbered unmarked (newline_not_mem_of_mem_lines (List.mem_of_getElem? there))
  have ofNeighbour (number : Nat) : ∀ l ∈ neighbour (lines source) number, '\n' ∉ l.toList := by
    intro l mem
    obtain ⟨-, l, there, rfl⟩ := mem_neighbour_iff.1 mem
    exact ofLine (by decide) there
  -- No line has a line feed in it, so what has been joined is split again.
  rw [shown, excerpt_eq _ positive, String.toList_intercalate]
  refine List.splitOn_intercalate '\n' ?_ (by simp)
  simp only [List.forall_mem_map, List.forall_mem_cons, List.forall_mem_append]
  exact ⟨unbroken, ofNeighbour _, ofLine (by decide) found, newline_not_mem_caret, ofNeighbour _⟩

/-- Under a message of one line, a diagnostic shows the line that it is about, marked, with a caret
under it, and the lines before and behind it, each with its own number.  The character at the column
stands in the marked line at its offset, and the caret stands there too if and only if the number of
the line has no more than three digits. -/
theorem carets_stand_under_their_characters {c : Char} (unbroken : '\n' ∉ message.toList)
    (positive : 0 < p.line) (found : (lines source)[p.line - 1]? = some line)
    (inside : line.toList[p.column - 1]? = some c) :
    (render message p (some source)).toList.splitOn '\n' =
      (message :: (neighbour (lines source) (p.line - 1) ++
        numbered ">" p.line line :: caret p.column ::
          neighbour (lines source) (p.line + 1))).map String.toList ∧
    (numbered ">" p.line line).toList[offset p]? = some c ∧
    ((caret p.column).toList.idxOf '^' = offset p ↔ p.line < 1000) :=
  ⟨splitOn_render unbroken positive found, getElem?_numbered_offset inside,
    idxOf_caret_eq_offset_iff⟩

/-- A name that is not known, on the second line of three. -/
theorem caret_stands_under_name :
    (lines "int main \x7b\n    ret x;\n\x7d")[1]? = some "    ret x;" ∧
    (numbered ">" 2 "    ret x;").toList[offset ⟨2, 9⟩]? = some 'x' ∧
    (caret 9).toList.idxOf '^' = offset ⟨2, 9⟩ := by
  let p : Position := ⟨2, 9⟩
  have unbroken : '\n' ∉ "Unknown identifier 'x'.".toList := by decide
  have found : (lines "int main \x7b\n    ret x;\n\x7d")[p.line - 1]? = some "    ret x;" := by
    rfl
  have inside : "    ret x;".toList[p.column - 1]? = some 'x' := by decide
  have shown := carets_stand_under_their_characters unbroken (by decide) found inside
  exact ⟨found, shown.2.1, shown.2.2.2 (by decide)⟩

/-! ## Behind line 999 -/

/-- Empty lines and a character behind them. -/
def behindEmptyLines (n : Nat) : String := String.ofList (List.replicate n '\n' ++ ['x'])

theorem lines_behindEmptyLines (n : Nat) :
    lines (behindEmptyLines n) = List.replicate n "" ++ ["x"] := by
  rw [lines, behindEmptyLines, String.toList_ofList]
  induction n with
  | zero => rfl
  | succ n inductionHypothesis =>
    rw [List.replicate_succ, List.replicate_succ, List.cons_append, List.cons_append, splitLines,
      List.map_cons, inductionHypothesis]

theorem getElem?_lines_behindEmptyLines (n : Nat) :
    (lines (behindEmptyLines n))[n]? = some "x" := by
  rw [lines_behindEmptyLines, List.getElem?_append_right (by simp)]
  simp

theorem render_behindEmptyLines (message : String) (n column : Nat) :
    render message ⟨n + 2, column⟩ (some (behindEmptyLines (n + 1))) =
      "\n".intercalate
        [message, numbered " " (n + 1) "", numbered ">" (n + 2) "x", caret column] := by
  have before : (lines (behindEmptyLines (n + 1)))[n]? = some "" := by
    rw [lines_behindEmptyLines, List.getElem?_append_left (by simp)]
    simp
  have found := getElem?_lines_behindEmptyLines (n + 1)
  have behind : (lines (behindEmptyLines (n + 1)))[n + 2]? = none := by
    rw [lines_behindEmptyLines]
    simp
  simp [render, excerpt, before, found, behind]

/-- The caret under a character on line 1000 stands one place to the left of it. -/
theorem caret_falls_short_behind_line_999 :
    (lines (behindEmptyLines 999))[999]? = some "x" ∧
    render "m" ⟨1000, 1⟩ (some (behindEmptyLines 999)) = "m\n 999 | \n>1000 | x\n     | ^" ∧
    ">1000 | x".toList.idxOf 'x' = 8 ∧ "     | ^".toList.idxOf '^' = 7 := by
  refine ⟨getElem?_lines_behindEmptyLines 999, ?_, by decide, by decide⟩
  rw [render_behindEmptyLines "m" 998 1]
  rfl

end Diagnostic

end Rightflow
