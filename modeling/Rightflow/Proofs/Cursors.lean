import Rightflow.Text.Reader

/-!
# Cursors

A cursor stands between two characters of a text: it holds what lies ahead and the position it has
reached.  Moving forward by `n` characters keeps the two in step, which `skip_ahead` and
`skip_position` state.  It never goes back; what a reader sees of its text from where it stands is a
cursor (`Reader.cursor`), and taking back the character just read gives the cursor of before
(`Reader.next_cases`).
-/

namespace Rightflow

@[ext]
structure Cursor where
  ahead : List Char
  position : Position := .start
deriving DecidableEq, Repr

namespace Cursor

/-- The cursor at the beginning of a text. -/
def ofString (source : String) : Cursor := ⟨source.toList, .start⟩

/-- The cursor behind the next `n` characters, or behind all of them if there are fewer. -/
def skip (cur : Cursor) (n : Nat) : Cursor :=
  ⟨cur.ahead.drop n, cur.position.after (cur.ahead.take n)⟩

/-- The cursor at the next character that does not satisfy `p`. -/
def skipWhile (cur : Cursor) (p : Char → Bool) : Cursor :=
  ⟨cur.ahead.dropWhile p, cur.position.after (cur.ahead.takeWhile p)⟩

@[simp] theorem skip_ahead (cur : Cursor) (n : Nat) : (cur.skip n).ahead = cur.ahead.drop n := rfl

@[simp] theorem skip_position (cur : Cursor) (n : Nat) :
    (cur.skip n).position = cur.position.after (cur.ahead.take n) := rfl

@[simp] theorem skip_zero (cur : Cursor) : cur.skip 0 = cur := by
  simp [skip]

theorem skip_append (xs ys : List Char) (p : Position) :
    skip ⟨xs ++ ys, p⟩ xs.length = ⟨ys, p.after xs⟩ := by
  simp [skip]

theorem skip_add (cur : Cursor) (m n : Nat) : cur.skip (m + n) = (cur.skip m).skip n := by
  simp [skip, List.take_add, Position.after_append]

theorem skipWhile_eq_skip (cur : Cursor) (p : Char → Bool) :
    cur.skipWhile p = cur.skip (cur.ahead.takeWhile p).length := by
  have whole := skip_append (cur.ahead.takeWhile p) (cur.ahead.dropWhile p) cur.position
  rw [List.takeWhile_append_dropWhile] at whole
  exact whole.symm

end Cursor

namespace Reader

variable {r : Reader} {c : Char}

/-- What a reader sees from where it stands. -/
def cursor (r : Reader) : Cursor := ⟨r.source.toList.drop r.index, r.position⟩

@[simp] theorem cursor_position (r : Reader) : r.cursor.position = r.position := rfl

theorem cursor_ofString (source : String) : (ofString source).cursor = .ofString source := rfl

theorem isAtEnd_iff_ahead : r.isAtEnd = true ↔ r.cursor.ahead = [] := by
  simp [isAtEnd, cursor]

theorem peek?_eq_head? (r : Reader) : r.peek? = r.cursor.ahead.head? := by
  rw [cursor, List.head?_drop, Array.getElem?_toList, peek?]

theorem cursor_next (ahead : r.peek? = some c) :
    r.cursor = ⟨c :: r.next.2.cursor.ahead, r.position⟩ ∧
      r.next.2.position = r.position.advance c := by
  have read : r.source.toList[r.index]? = some c := by rw [Array.getElem?_toList]; exact ahead
  obtain ⟨inside, rfl⟩ := List.getElem?_eq_some_iff.1 read
  rw [next_of_some ahead, cursor, List.drop_eq_getElem_cons inside]
  exact ⟨rfl, rfl⟩

/-- At the end of a text reading gives nothing.  Otherwise it gives the first character that lies
ahead, goes behind it, and can come back. -/
theorem next_cases (r : Reader) :
    (r.cursor.ahead = [] ∧ r.next = (none, r)) ∨
    ∃ c after, r.next = (some c, after) ∧ r.cursor.ahead = c :: after.cursor.ahead ∧
      after.position = r.position.advance c ∧ after.unget.cursor = r.cursor := by
  cases ahead : r.peek? with
  | none =>
    refine .inl ⟨?_, next_of_none ahead⟩
    rwa [peek?_eq_head?, List.head?_eq_none_iff] at ahead
  | some c =>
    obtain ⟨whole, moved⟩ := cursor_next ahead
    refine .inr ⟨c, r.next.2, ?_, congrArg Cursor.ahead whole, moved, ?_⟩
    · rw [next_of_some ahead]
    · rw [unget_next ahead]
      rfl

end Reader

end Rightflow
