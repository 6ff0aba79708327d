import Mathlib.Data.List.Induction
import Rightflow.Proofs.Lexicon
import Rightflow.Token.Scan

/-!
# The automaton takes the longest lexeme

The lexer reads with an automaton that goes character by character and gives back what does not
belong to its token.  `Cursor.token` looks at all that lies ahead and takes the longest lexeme.
Both give the same tokens and failures and leave off at the same place (`Reader.token_eq`), so the
tokens of a text are those of its cursor (`tokenize_eq`).

There are three steps.  The tables of the lexer agree with the spellings that messages show
(`Table.single?_eq_some_iff` and its kin).  Giving a character back is the same as not taking it, so
the automaton can run over a cursor (`Lexer.run_eq_feed`).  And there each of its states reads to
the end of what it is made for.
-/

namespace Rightflow

/-! ## Tables and spellings -/

/-- The characters that a mark has been read from. -/
def Mark.spelling : Mark → List Char
  | .symbol s => s.spelling
  | .comment => ['/', '/']

/-- All marks. -/
def Mark.all : List Mark := .comment :: Symbol.byLength.map .symbol

theorem Mark.mem_all (m : Mark) : m ∈ all := by
  cases m with
  | comment => simp [all]
  | symbol s => simp [all, Symbol.mem_byLength]

/-- The mark stands at the front of a text, and no longer one does. -/
structure Mark.LongestAt (m : Mark) (text : List Char) : Prop where
  atFront : m.spelling <+: text
  longest : ∀ other : Mark, other.spelling <+: text → other.spelling.length ≤ m.spelling.length

/-- The token at the front of a text that begins with a mark. -/
def Mark.reading (text : List Char) : Mark → Reading × Nat
  | .symbol s => (.token (.symbol s) none, s.spelling.length)
  | .comment => (.token .comment none, commentLength text)

theorem Symbol.not_comment_prefix (s : Symbol) : ¬ ['/', '/'] <+: s.spelling := by
  cases s <;> decide

namespace Reading

variable {c : Char} {rest : List Char}

/-- The longest mark at the front is what is read. -/
theorem symbol_of_longest {m : Mark} (longest : m.LongestAt (c :: rest)) :
    symbol c rest = m.reading (c :: rest) := by
  obtain ⟨atFront, longest⟩ := longest
  unfold symbol
  cases m with
  | comment => exact if_pos (List.isPrefixOf_iff_prefix.2 atFront)
  | symbol s =>
    have notComment : ¬ ['/', '/'] <+: c :: rest := fun comment =>
      s.not_comment_prefix
        (List.prefix_of_prefix_length_le comment atFront (longest .comment comment))
    have found : Symbol.longestAt? (c :: rest) = some s := by
      -- Symbols are tried from the longest on, and two of one length at the front are the same.
      cases found : Symbol.longestAt? (c :: rest) with
      | none =>
        have missed := List.find?_eq_none.1 found s (Symbol.mem_byLength s)
        exact absurd (List.isPrefixOf_iff_prefix.2 atFront) missed
      | some t =>
        have front : t.spelling <+: c :: rest :=
          List.isPrefixOf_iff_prefix.1 (by simpa using List.find?_some found)
        have length := Nat.le_antisymm (longest (.symbol t) front)
          (Symbol.length_le_of_longestAt? found atFront)
        have same := (List.prefix_of_prefix_length_le front atFront
          (Nat.le_of_eq length)).eq_of_length length
        rw [Symbol.spelling_injective same]
    rw [if_neg (by simpa [List.isPrefixOf_iff_prefix] using notComment), found]
    rfl

/-- Where there is no mark, half of one takes the next character along. -/
theorem symbol_of_none (none : ∀ m : Mark, ¬ m.spelling <+: c :: rest) :
    symbol c rest = (.fault (.unexpectedCharacter c),
      1 + if opensPair c then (rest.take 1).length else 0) := by
  have notComment : ¬ ['/', '/'] <+: c :: rest := none .comment
  have missed : Symbol.longestAt? (c :: rest) = .none :=
    List.find?_eq_none.2 fun s _ atFront => none (.symbol s) (List.isPrefixOf_iff_prefix.1 atFront)
  rw [symbol, if_neg (by simpa [List.isPrefixOf_iff_prefix] using notComment), missed]

end Reading

namespace Table

variable {c : Char} {s : Symbol} {h : Half} {m m' : Mark}

/-- The symbols of one character are those that the table has. -/
theorem single?_eq_some_iff : single? c = some s ↔ s.spelling = [c] := by
  constructor
  · intro found
    obtain ⟨entry, listed, rfl⟩ := Option.map_eq_some_iff.1 found
    have same : entry.1 = c := by simpa using List.find?_some listed
    have agree : ∀ entry ∈ singles, entry.2.spelling = [entry.1] := by decide
    rw [agree entry (List.mem_of_find?_eq_some listed), same]
  · intro spelled
    cases s <;> cases spelled <;> rfl

theorem half?_eq_some_iff : half? c = some h ↔ h.char = c := by
  constructor
  · intro found
    obtain ⟨entry, listed, rfl⟩ := Option.map_eq_some_iff.1 found
    have same : entry.1 = c := by simpa using List.find?_some listed
    have agree : ∀ entry ∈ halves, entry.2.char = entry.1 := by decide
    rw [agree entry (List.mem_of_find?_eq_some listed), same]
  · rintro rfl
    cases h <;> rfl

/-- A half is completed to the symbols that it begins. -/
theorem completion?_eq_some_iff : completion? h c = some s ↔ s.spelling = [h.char, c] := by
  constructor
  · intro found
    obtain ⟨entry, listed, rfl⟩ := Option.map_eq_some_iff.1 found
    obtain ⟨rfl, rfl⟩ : entry.1 = h ∧ entry.2.1 = c := by simpa using List.find?_some listed
    have agree : ∀ entry ∈ completions, entry.2.2.spelling = [entry.1.char, entry.2.1] := by decide
    exact agree entry (List.mem_of_find?_eq_some listed)
  · intro spelled
    cases s <;> cases h <;> cases spelled <;> rfl

theorem spelling_of_extension? (found : extension? m c = some m') :
    m'.spelling = m.spelling ++ [c] := by
  obtain ⟨entry, listed, rfl⟩ := Option.map_eq_some_iff.1 found
  obtain ⟨rfl, rfl⟩ : entry.1 = m ∧ entry.2.1 = c := by simpa using List.find?_some listed
  have agree : ∀ entry ∈ extensions, entry.2.2.spelling = entry.1.spelling ++ [entry.2.1] := by
    decide
  exact agree entry (List.mem_of_find?_eq_some listed)

/-- A mark that another one begins with grows towards it. -/
theorem exists_extension? {more : List Char} (longer : m'.spelling = m.spelling ++ c :: more) :
    ∃ m'', extension? m c = some m'' := by
  have grows : ∀ m' ∈ Mark.all, m.spelling <+: m'.spelling →
      (m'.spelling.drop m.spelling.length).head?.all fun c => (extension? m c).isSome := by
    cases m with
    | comment => decide
    | symbol s => cases s <;> decide
  have next := grows m' m'.mem_all ⟨_, longer.symm⟩
  rw [longer, List.drop_left, List.head?_cons, Option.all_some] at next
  exact Option.isSome_iff_exists.1 next

/-- The characters that a mark begins with are in the tables. -/
theorem opening_cases {more : List Char} (spelled : m.spelling = c :: more) :
    (∃ s, single? c = some s) ∨
      ∃ h d rest s, half? c = some h ∧ more = d :: rest ∧ completion? h d = some s := by
  cases m with
  | comment => cases spelled; exact .inl ⟨_, rfl⟩
  | symbol s =>
    cases s <;> cases spelled <;>
      first | exact .inl ⟨_, rfl⟩ | exact .inr ⟨_, _, _, _, rfl, rfl, rfl⟩

/-- No mark stands where the tables have no beginning of one. -/
theorem no_mark {rest : List Char} (noSingle : single? c = none)
    (noPair : ∀ h d more, half? c = some h → rest = d :: more → completion? h d = none) (m : Mark) :
    ¬ m.spelling <+: c :: rest := by
  intro atFront
  cases spelled : m.spelling with
  | nil => cases m with
    | symbol s => cases s <;> cases spelled
    | comment => cases spelled
  | cons d more =>
    rw [spelled] at atFront
    obtain ⟨rfl, front⟩ := List.cons_prefix_cons.1 atFront
    -- A mark begins with a symbol of one character, or with a half and what completes it.
    obtain ⟨s, single⟩ | ⟨h, d, further, s, half, rfl, complete⟩ := opening_cases spelled
    · rw [noSingle] at single
      cases single
    · obtain ⟨after, rfl⟩ := front
      rw [noPair h d _ half rfl] at complete
      cases complete

/-- The words that the table has are those that keywords and truth values are shown as. -/
theorem formOf_eq_ofWord (word : String) : formOf word = .ofWord word := by
  by_cases listed : word ∈ reservedWords.map (·.1)
  · simp only [reservedWords, List.map_cons, List.map_nil, List.mem_cons, List.not_mem_nil,
      or_false] at listed
    obtain rfl | rfl | rfl | rfl | rfl | rfl | rfl | rfl | rfl | rfl | rfl | rfl | rfl | rfl :=
      listed <;> rfl
  · -- All keywords are listed, so a word that is not listed is none.
    have missed : reserved? word = none := by
      simp only [reserved?, Option.map_eq_none_iff, List.find?_eq_none, decide_eq_true_eq]
      rintro entry mem rfl
      exact listed (List.mem_map_of_mem mem)
    have noKeyword : Keyword.ofText? word = none := by
      cases found : Keyword.ofText? word with
      | none => rfl
      | some k =>
        rw [← Keyword.text_of_ofText? found] at listed
        rcases k with (_ | _) | _ <;> exact absurd (by decide) listed
    have notTrue : word ≠ "true" := by rintro rfl; exact listed (by decide)
    have notFalse : word ≠ "false" := by rintro rfl; exact listed (by decide)
    rw [formOf, missed, Form.ofWord, if_neg notTrue, if_neg notFalse, noKeyword]

end Table

/-! ## The automaton over a cursor -/

namespace Reader

theorem left_eq (r : Reader) : r.left = r.cursor.ahead.length := by
  simp [left, cursor]

/-- Discarding the rest of the line skips to the next line feed. -/
theorem cursor_skipLine (r : Reader) : r.skipLine.cursor = r.cursor.skipWhile (· ≠ '\n') := by
  have within (n : Nat) (r : Reader) (few : r.cursor.ahead.length ≤ n) :
      (skipLineWithin n r).cursor = r.cursor.skipWhile (· ≠ '\n') := by
    induction n generalizing r with
    | zero =>
      have atEnd : r.cursor.ahead = [] := List.length_eq_zero_iff.1 (Nat.le_zero.1 few)
      simp [skipLineWithin, Cursor.skipWhile, atEnd, Cursor.ext_iff]
    | succ n inductionHypothesis =>
      rw [skipLineWithin, peek?_eq_head?]
      obtain ⟨atEnd, -⟩ | ⟨c, after, read, ahead, moved, -⟩ := r.next_cases
      · simp [Cursor.skipWhile, atEnd, Cursor.ext_iff]
      · simp only [ahead, List.head?_cons, read]
        by_cases newline : c = '\n'
        · simp [newline, Cursor.skipWhile, ahead, Cursor.ext_iff]
        · have fewer : after.cursor.ahead.length ≤ n := by simpa [ahead] using few
          simp [newline, Cursor.skipWhile, ahead, inductionHypothesis after fewer, moved]
  exact within r.left r (Nat.le_of_eq r.left_eq.symm)

end Reader

namespace Lexer

/-- Where reading goes on over a cursor. -/
def leaveCursor (cur : Cursor) : State → Cursor
  | .longMark .comment => cur.skipWhile (· ≠ '\n')
  | _ => cur

theorem cursor_leave (r : Reader) (state : State) :
    (leave r state).cursor = leaveCursor r.cursor state := by
  by_cases comment : state = .longMark .comment
  · rw [comment]
    exact r.cursor_skipLine
  · simp [leave, leaveCursor]

/-- The automaton over what lies ahead, which does not take the character that a reader would give
back. -/
def feed : List Char → Position → State → Notes → Except LexError Scanned × Cursor
  | ahead, p, .closed, notes => (.ok (made notes .string), ⟨ahead, p⟩)
  | [], p, state, notes => (madeAtEnd notes p state, ⟨[], p⟩)
  | c :: rest, p, state, notes =>
    let notes := if state = .blank then { notes with start := p } else notes
    match step notes c state with
    | .error e => (.error e, ⟨rest, p.advance c⟩)
    | .ok (some (state, notes)) => feed rest (p.advance c) state notes
    | .ok none => (.ok (made notes state), leaveCursor ⟨c :: rest, p⟩ state)

theorem feed_closed (ahead : List Char) (p : Position) (notes : Notes) :
    feed ahead p .closed notes = (.ok (made notes .string), ⟨ahead, p⟩) := by
  cases ahead <;> rfl

theorem feed_nil (p : Position) (state : State) (notes : Notes) :
    feed [] p state notes = (madeAtEnd notes p state, ⟨[], p⟩) := by
  cases state <;> rfl

section

variable {state : State} {notes : Notes} {p : Position} {c : Char} {rest : List Char}

/-- One character of a token that has been begun. -/
theorem feed_cons (isOpen : state ≠ .closed) (begun : state ≠ .blank) :
    feed (c :: rest) p state notes =
      match step notes c state with
      | .error e => (.error e, ⟨rest, p.advance c⟩)
      | .ok (some (state, notes)) => feed rest (p.advance c) state notes
      | .ok none => (.ok (made notes state), leaveCursor ⟨c :: rest, p⟩ state) := by
  cases state <;> first | rfl | exact absurd rfl isOpen | exact absurd rfl begun

end

/-- At the end of the text there is nothing left to discard. -/
theorem finishAtEnd_eq_feed {r : Reader} (atEnd : r.cursor.ahead = []) (state : State)
    (notes : Notes) :
    (finishAtEnd notes r state).map id Reader.cursor =
      feed r.cursor.ahead r.position state notes := by
  have here : leaveCursor r.cursor state = ⟨[], r.position⟩ := by
    by_cases comment : state = .longMark .comment
    · simp [leaveCursor, comment, Cursor.skipWhile, atEnd]
    · simp [leaveCursor, Cursor.ext_iff, atEnd]
  rw [atEnd, feed_nil, ← here, ← cursor_leave]
  rfl

theorem run_closed_eq_feed (n : Nat) (r : Reader) (notes : Notes) :
    (run n .closed notes r).map id Reader.cursor =
      feed r.cursor.ahead r.position .closed notes := by
  rw [feed_closed]
  cases n <;> rfl

/-- Giving a character back is the same as not taking it. -/
theorem run_eq_feed {n : Nat} {r : Reader} (enough : r.cursor.ahead.length ≤ n) (state : State)
    (notes : Notes) :
    (run n state notes r).map id Reader.cursor = feed r.cursor.ahead r.position state notes := by
  -- A closed token is not read on, whatever is left; otherwise every round takes a character.
  induction n generalizing r state notes with
  | zero =>
    by_cases closed : state = .closed
    · rw [closed, run_closed_eq_feed]
    · rw [run, finishAtEnd_eq_feed (List.length_eq_zero_iff.1 (Nat.le_zero.1 enough))]
      exact closed
  | succ n inductionHypothesis =>
    by_cases closed : state = .closed
    · rw [closed, run_closed_eq_feed]
    · obtain ⟨atEnd, read⟩ | ⟨c, after, read, ahead, moved, back⟩ := r.next_cases
      · rw [run, read, finishAtEnd_eq_feed atEnd, atEnd, feed_nil, feed_nil]
        · by_cases begun : state = .blank
          · rw [begun]
            rfl
          · rw [if_neg begun]
        · exact closed
      · have fewer : after.cursor.ahead.length ≤ n := by simpa [ahead] using enough
        rw [run, read, ahead, feed]
        · dsimp only
          generalize (if state = .blank then { notes with start := r.position } else notes) = notes
          cases taken : step notes c state with
          | error e => exact congrArg (Except.error e, ·) (Cursor.ext rfl moved)
          | ok next =>
            cases next with
            | none =>
              rw [← ahead]
              have left : (leave after.unget state).cursor = leaveCursor r.cursor state := by
                rw [cursor_leave, back]
              exact congrArg (Except.ok (made notes state), ·) left
            | some next =>
              obtain ⟨state, notes⟩ := next
              rw [← moved]
              exact inductionHypothesis fewer state notes
        · exact closed
        · exact closed

/-! ## What each state reads -/

namespace Notes

/-- Of the word that is read the beginning is kept. -/
theorem foldl_pushNameChar (word : List Char) (p : Position) :
    word.foldl pushNameChar { start := p } =
      { start := p, text := String.ofList (word.take nameLimit), length := word.length } := by
  -- By the last character, which is kept or not according to how many stand before it.
  induction word using List.reverseRecOn with
  | nil => rfl
  | append_singleton word c inductionHypothesis =>
    rw [List.foldl_append, inductionHypothesis, List.foldl_cons, List.foldl_nil, pushNameChar]
    dsimp only
    by_cases room : word.length + 1 ≤ nameLimit
    · rw [if_pos room, List.take_of_length_le (by omega),
        List.take_of_length_le (by simpa using room)]
      simp
    · rw [if_neg room, List.take_append_of_le_length (by omega)]
      simp

theorem foldl_pushWhole (digits : List Char) (notes : Notes) :
    digits.foldl pushWhole notes =
      { notes with number := digits.foldl Numeral.pushWhole notes.number } := by
  induction digits generalizing notes with
  | nil => rfl
  | cons c digits inductionHypothesis => exact inductionHypothesis (notes.pushWhole c)

theorem foldl_pushPlace (digits : List Char) (notes : Notes) :
    digits.foldl pushPlace notes =
      { notes with number := digits.foldl Numeral.pushPlace notes.number } := by
  induction digits generalizing notes with
  | nil => rfl
  | cons c digits inductionHypothesis => exact inductionHypothesis (notes.pushPlace c)

end Notes

section

variable {notes : Notes} {p : Position} {c : Char} {rest : List Char}

/-- A state that a kind of characters does not leave reads all of them. -/
theorem feed_while {state : State} {holds : Char → Bool} {push : Notes → Char → Notes}
    (isOpen : state ≠ .closed) (begun : state ≠ .blank)
    (stays : ∀ notes c, holds c = true → step notes c state = .ok (some (state, push notes c)))
    (text : List Char) (p : Position) (notes : Notes) :
    feed text p state notes =
      feed (text.dropWhile holds) (p.after (text.takeWhile holds)) state
        ((text.takeWhile holds).foldl push notes) := by
  induction text generalizing p notes with
  | nil => rfl
  | cons c rest inductionHypothesis =>
    by_cases goesOn : holds c = true
    · rw [feed_cons isOpen begun, stays notes c goesOn]
      simp [goesOn, inductionHypothesis]
    · simp [goesOn]

/-- A state that all other characters end reads up to the first of them. -/
theorem feed_span {state : State} {holds : Char → Bool} {push : Notes → Char → Notes}
    (isOpen : state ≠ .closed) (begun : state ≠ .blank)
    (stays : ∀ notes c, holds c = true → step notes c state = .ok (some (state, push notes c)))
    (ends : ∀ notes c, holds c = false → step notes c state = .ok none)
    (whole : ∀ notes p, madeAtEnd notes p state = .ok (made notes state))
    (leaves : ∀ cur, leaveCursor cur state = cur) (text : List Char) (p : Position)
    (notes : Notes) :
    feed text p state notes =
      (.ok (made ((text.takeWhile holds).foldl push notes) state),
        Cursor.skipWhile ⟨text, p⟩ holds) := by
  rw [feed_while isOpen begun stays, Cursor.skipWhile]
  cases left : text.dropWhile holds with
  | nil => rw [feed_nil, whole]
  | cons c rest =>
    have other : holds c = false := by
      simpa [left] using List.head_dropWhile_not holds (l := text) (by simp [left])
    rw [feed_cons isOpen begun, ends _ c other]
    exact congrArg (Except.ok _, ·) (leaves _)

theorem feed_name (text : List Char) (p : Position) (notes : Notes) :
    feed text p .name notes =
      (.ok (made ((text.takeWhile isNameChar).foldl Notes.pushNameChar notes) .name),
        Cursor.skipWhile ⟨text, p⟩ isNameChar) :=
  feed_span (by simp) (by simp) (fun _ _ named => by simp [step, named])
    (fun _ _ other => by simp [step, other]) (fun _ _ => rfl) (fun _ => rfl) text p notes

theorem feed_places (text : List Char) (p : Position) (notes : Notes) :
    feed text p .places notes =
      (.ok (made ((text.takeWhile Char.isDigit).foldl Notes.pushPlace notes) .places),
        Cursor.skipWhile ⟨text, p⟩ Char.isDigit) :=
  feed_span (by simp) (by simp) (fun _ _ digit => by simp [step, digit])
    (fun _ _ other => by simp [step, other]) (fun _ _ => rfl) (fun _ => rfl) text p notes

/-- Digits are read one after the other. -/
theorem feed_digits (text : List Char) (p : Position) (notes : Notes) :
    feed text p .whole notes =
      feed (text.dropWhile Char.isDigit) (p.after (text.takeWhile Char.isDigit)) .whole
        ((text.takeWhile Char.isDigit).foldl Notes.pushWhole notes) :=
  feed_while (by simp) (by simp) (fun _ _ digit => by simp [step, digit]) text p notes

theorem feed_point (after : List Char) (p : Position) (notes : Notes) :
    feed ('.' :: after) p .whole notes = feed after (p.advance '.') .places notes := by
  rw [feed_cons (by simp) (by simp)]
  rfl

/-- What is neither a digit nor a point ends a whole number. -/
theorem feed_end {after : List Char} (noDigit : ∀ c ∈ after.head?, c.isDigit = false)
    (noPoint : ∀ more, after ≠ '.' :: more) (p : Position) (notes : Notes) :
    feed after p .whole notes = (.ok (made notes .whole), ⟨after, p⟩) := by
  cases after with
  | nil => rfl
  | cons c more =>
    have other : c ≠ '.' := fun point => noPoint more (by rw [point])
    rw [feed_cons (by simp) (by simp)]
    simp [step, noDigit c rfl, other, leaveCursor]

theorem feed_plain (notQuote : c ≠ '"') (notBackslash : c ≠ '\\') (notNewline : c ≠ '\n') :
    feed (c :: rest) p .string notes =
      feed rest (p.advance c) .string (notes.pushContent c) := by
  rw [feed_cons (by simp) (by simp), step, if_neg notQuote, if_neg notBackslash, if_neg notNewline]

theorem feed_escaped (notNewline : c ≠ '\n') :
    feed ('\\' :: c :: rest) p .string notes =
      feed rest ((p.advance '\\').advance c) .string (notes.pushContent (unescape c)) := by
  rw [feed_cons (by simp) (by simp)]
  show feed (c :: rest) _ .escape notes = _
  rw [feed_cons (by simp) (by simp), step, if_neg notNewline]

/-- A string is read to its closing quote, and no further than the line. -/
theorem feed_string (text : List Char) (p : Position) (notes : Notes) :
    feed text p .string notes =
      ((match (stringContent text).1 with
        | some content =>
          .ok (made { notes with text := notes.text ++ String.ofList content } .string)
        | none => .error (notes.error .unterminatedString)),
        Cursor.skip ⟨text, p⟩ (stringContent text).2) := by
  induction text using stringContent.induct generalizing p notes with
  | case1 | case4 => rfl
  | case2 rest | case3 rest | case5 rest =>
    simp [feed_cons, step, stringContent, feed_closed, Cursor.skip]
  | case6 c rest notNewline content? k run ih =>
    rw [feed_escaped notNewline, ih, stringContent_escaped notNewline, run]
    cases content? <;>
      simp [Notes.pushContent, Cursor.skip, Notes.error, ← String.append_singleton,
        String.append_assoc]
  | case7 c rest notQuote notNewline notLast notBroken notEscape content? k run ih =>
    have notBackslash := ne_backslash notLast notEscape
    rw [feed_plain notQuote notBackslash notNewline, ih,
      stringContent_plain notQuote notBackslash notNewline, run]
    cases content? <;>
      simp [Notes.pushContent, Cursor.skip, Notes.error, ← String.append_singleton,
        String.append_assoc]

/-! ### Marks -/

/-- From a mark that has been read the automaton goes on to the longest one. -/
theorem feed_longMark (m : Mark) (rest : List Char) (p : Position) (notes : Notes) :
    ∃ (m' : Mark) (more after : List Char), m'.LongestAt (m.spelling ++ rest) ∧
      rest = more ++ after ∧ m'.spelling = m.spelling ++ more ∧
      feed rest p (.longMark m) notes =
        (.ok (made notes (.longMark m')), leaveCursor ⟨after, p.after more⟩ (.longMark m')) := by
  induction rest generalizing m p with
  | nil =>
    refine ⟨m, [], [], ⟨by simp, fun other atFront => ?_⟩, rfl, by simp, ?_⟩
    · simpa using atFront.length_le
    · rw [feed_nil]
      cases m <;> rfl
  | cons c rest inductionHypothesis =>
    rw [feed_cons (by simp) (by simp), step]
    cases found : Table.extension? m c with
    | none =>
      refine ⟨m, [], c :: rest, ⟨by simp, fun other atFront => ?_⟩, rfl, by simp, rfl⟩
      -- A longer mark at the front would have this one and the next character before it.
      by_contra longer
      obtain ⟨more, split⟩ :=
        List.prefix_of_prefix_length_le (List.prefix_append m.spelling _) atFront (by omega)
      rw [← split, List.prefix_append_right_inj] at atFront
      cases more with
      | nil => simp [← split] at longer
      | cons d more =>
        obtain ⟨rfl, -⟩ := List.cons_prefix_cons.1 atFront
        obtain ⟨next, grows⟩ := Table.exists_extension? split.symm
        rw [found] at grows
        cases grows
    | some next =>
      have spelled := Table.spelling_of_extension? found
      obtain ⟨m', more, after, longest, rfl, whole, fed⟩ := inductionHypothesis next (p.advance c)
      refine ⟨m', c :: more, after, ?_, rfl, ?_, ?_⟩
      · simpa [spelled] using longest
      · simp [whole, spelled]
      · simpa using fed

/-- What has been read as a symbol goes on alike, whatever the number of its characters. -/
theorem feed_mark (s : Symbol) (text : List Char) (p : Position) (notes : Notes) :
    feed text p (.mark (.symbol s)) notes = feed text p (.longMark (.symbol s)) notes := by
  cases text with
  | nil => rfl
  | cons c rest =>
    rw [feed_cons (by simp) (by simp), feed_cons (by simp) (by simp), step, step]
    cases Table.extension? (.symbol s) c <;> rfl

/-- The characters from a symbol or a comment on, as the automaton reads them. -/
theorem feed_longest {m : Mark} {more : List Char} (spelled : m.spelling = c :: more)
    (rest : List Char) (p : Position) :
    feed rest (p.after (c :: more)) (.longMark m) { start := p } =
      ((Reading.symbol c (more ++ rest)).1.answer p,
        Cursor.skip ⟨c :: (more ++ rest), p⟩ (Reading.symbol c (more ++ rest)).2) := by
  obtain ⟨m', further, after, longest, rfl, whole, fed⟩ :=
    feed_longMark m rest (p.after (c :: more)) { start := p }
  rw [fed, ← Position.after_append, ← spelled, ← whole]
  have text : c :: (more ++ (further ++ after)) = m'.spelling ++ after := by
    rw [whole, spelled]
    simp
  rw [spelled, List.cons_append] at longest
  rw [Reading.symbol_of_longest longest, text]
  cases m' with
  | symbol s => exact congrArg _ (Cursor.skip_append s.spelling after p).symm
  | comment =>
    -- The slashes are part of the line that the comment takes along.
    have line : (Mark.comment.spelling ++ after).takeWhile (· ≠ '\n') =
        Mark.comment.spelling ++ after.takeWhile (· ≠ '\n') := by
      simp [Mark.spelling]
    have skipped := Cursor.skip_append (Mark.comment.spelling ++ after.takeWhile (· ≠ '\n'))
      (after.dropWhile (· ≠ '\n')) p
    rw [List.append_assoc, List.takeWhile_append_dropWhile, Position.after_append, ← line]
      at skipped
    exact congrArg _ skipped.symm

theorem feed_half {h : Half} (noSingle : Table.single? h.char = none) (rest : List Char)
    (p : Position) :
    feed rest (p.advance h.char) (.half h) { start := p } =
      ((Reading.symbol h.char rest).1.answer p,
        Cursor.skip ⟨h.char :: rest, p⟩ (Reading.symbol h.char rest).2) := by
  have opens : opensPair h.char = true := by cases h <;> rfl
  have same {h' : Half} (half : Table.half? h.char = some h') : h' = h :=
    Option.some.inj (half.symm.trans (Table.half?_eq_some_iff.2 rfl))
  cases rest with
  | nil =>
    have noPair (h' : Half) (e : Char) (more : List Char) (_ : Table.half? h.char = some h')
        (split : [] = e :: more) : Table.completion? h' e = none := nomatch split
    rw [feed_nil, Reading.symbol_of_none (Table.no_mark noSingle noPair), opens]
    rfl
  | cons d rest =>
    rw [feed_cons (by simp) (by simp), step]
    cases complete : Table.completion? h d with
    | some s =>
      exact feed_longest (m := .symbol s) (Table.completion?_eq_some_iff.1 complete) rest p
    | none =>
      have noPair (h' : Half) (e : Char) (more : List Char) (half : Table.half? h.char = some h')
          (split : d :: rest = e :: more) : Table.completion? h' e = none := by
        obtain ⟨rfl, -⟩ := List.cons.inj split
        rwa [same half]
      rw [Reading.symbol_of_none (Table.no_mark noSingle noPair), opens]
      rfl

theorem feed_word (letter : isLetter c = true) (rest : List Char) (p : Position) :
    feed rest (p.advance c) .name (Notes.pushNameChar { start := p } c) =
      let word := (c :: rest).takeWhile isNameChar
      ((Reading.ofWord word).answer p, Cursor.skip ⟨c :: rest, p⟩ word.length) := by
  rw [feed_name, List.takeWhile_cons_of_pos (isNameChar_of_isLetter letter)]
  dsimp only
  have folded := Notes.foldl_pushNameChar (c :: rest.takeWhile isNameChar) p
  rw [List.foldl_cons] at folded
  rw [folded]
  have skipped := Cursor.skip_append (c :: rest.takeWhile isNameChar) (rest.dropWhile isNameChar) p
  rw [List.cons_append, List.takeWhile_append_dropWhile] at skipped
  rw [skipped, made, Table.formOf_eq_ofWord]
  rfl

theorem feed_number (digit : c.isDigit = true) (rest : List Char) (p : Position) :
    feed rest (p.advance c) .whole (Notes.pushWhole { start := p } c) =
      ((Reading.number (c :: rest)).1.answer p,
        Cursor.skip ⟨c :: rest, p⟩ (Reading.number (c :: rest)).2) := by
  have whole := Notes.foldl_pushWhole (c :: rest.takeWhile Char.isDigit) { start := p }
  rw [List.foldl_cons] at whole
  have noDigit : ∀ d ∈ (rest.dropWhile Char.isDigit).head?, d.isDigit = false := by
    intro d first
    have other := List.head?_dropWhile_not Char.isDigit rest
    rw [Option.mem_def] at first
    rwa [first] at other
  have text : c :: rest = c :: rest.takeWhile Char.isDigit ++ rest.dropWhile Char.isDigit := by
    simp
  rw [feed_digits, whole, Reading.number, List.takeWhile_cons_of_pos digit,
    List.dropWhile_cons_of_pos digit, text]
  -- The character behind the digits decides whether the number has places.
  split
  next after point =>
    rw [point, feed_point, feed_places, Notes.foldl_pushPlace]
    dsimp only
    rw [Cursor.skip_add, Cursor.skip_add, Cursor.skip_append (c :: rest.takeWhile Char.isDigit),
      Cursor.skipWhile_eq_skip]
    rfl
  next noPoint =>
    rw [feed_end noDigit noPoint, Cursor.skip_append (c :: rest.takeWhile Char.isDigit)]
    rfl

/-- From the first character of a token on the automaton reads what stands at the front. -/
theorem feed_front (c : Char) (rest : List Char) (p : Position) :
    (match begin { start := p } c with
      | .error e => (.error e, ⟨rest, p.advance c⟩)
      | .ok (state, notes) => feed rest (p.advance c) state notes) =
      ((Reading.front c rest).1.answer p, Cursor.skip ⟨c :: rest, p⟩ (Reading.front c rest).2) := by
  unfold begin Reading.front
  -- Both try what a token begins with in the same order, up to the symbols.
  by_cases letter : isLetter c = true
  · rw [if_pos letter, if_pos letter]
    exact feed_word letter rest p
  by_cases digit : c.isDigit = true
  · rw [if_neg letter, if_neg letter, if_pos digit, if_pos digit]
    exact feed_number digit rest p
  by_cases quote : c = '"'
  · rw [if_neg letter, if_neg letter, if_neg digit, if_neg digit, if_pos quote, if_pos quote]
    dsimp only
    rw [feed_string, Reading.string]
    rcases stringContent rest with ⟨_ | content, n⟩ <;>
      simp [Reading.answer, made, Notes.scanned, Notes.error, Cursor.skip]
  rw [if_neg letter, if_neg letter, if_neg digit, if_neg digit, if_neg quote, if_neg quote]
  cases single : Table.single? c with
  | some s =>
    dsimp only
    rw [feed_mark]
    exact feed_longest (m := .symbol s) (Table.single?_eq_some_iff.1 single) rest p
  | none =>
    cases half : Table.half? c with
    | some h =>
      obtain rfl := Table.half?_eq_some_iff.1 half
      exact feed_half single rest p
    | none =>
      -- Half of a symbol would be in the table of halves.
      have noMark : ∀ m : Mark, ¬ m.spelling <+: c :: rest :=
        Table.no_mark single fun h d more found => by rw [half] at found; cases found
      have opens : opensPair c = false := by
        rw [Bool.eq_false_iff]
        intro opens
        simp only [opensPair, Bool.or_eq_true, decide_eq_true_eq] at opens
        obtain ((rfl | rfl) | rfl) | rfl := opens <;> cases half
      rw [Reading.symbol_of_none noMark, opens]
      rfl

theorem feed_skip (blank : isBlank c = true) (rest : List Char) (p q : Position) :
    feed (c :: rest) p .blank { start := q } = feed rest (p.advance c) .blank { start := p } := by
  rw [feed, step, if_pos blank]
  · rfl
  · simp

/-- A character that is not white space begins a token, which is noted to stand there. -/
theorem feed_begin (visible : isBlank c = false) (rest : List Char) (p q : Position) :
    feed (c :: rest) p .blank { start := q } =
      match begin { start := p } c with
      | .error e => (.error e, ⟨rest, p.advance c⟩)
      | .ok (state, notes) => feed rest (p.advance c) state notes := by
  have begins : step { start := p } c .blank = (begin { start := p } c).map some :=
    if_neg (by simp [visible])
  rw [feed, if_pos rfl]
  · rw [begins]
    rcases begin { start := p } c with _ | ⟨state, notes⟩ <;> rfl
  · simp

end

/-- From between two tokens the automaton reads what `Cursor.token` reads. -/
theorem feed_blank (text : List Char) (p q : Position) :
    feed text p .blank { start := q } = Cursor.token ⟨text, p⟩ := by
  induction text generalizing p q with
  | nil => rfl
  | cons c rest inductionHypothesis =>
    by_cases blank : isBlank c = true
    · rw [feed_skip blank, inductionHypothesis]
      simp [Cursor.token, Cursor.skipWhile, blank]
    · have stays : Cursor.skipWhile ⟨c :: rest, p⟩ isBlank = ⟨c :: rest, p⟩ := by
        simp [Cursor.skipWhile, blank]
      rw [feed_begin (by simpa using blank), feed_front, Cursor.token, stays]

end Lexer

/-- The lexer reads what stands next in the text, and leaves off at the same place. -/
theorem Reader.token_eq (r : Reader) : r.token.map id Reader.cursor = r.cursor.token := by
  rw [← Lexer.feed_blank _ _ .start]
  by_cases atEnd : r.isAtEnd = true
  · rw [token, if_pos atEnd]
    exact Lexer.finishAtEnd_eq_feed (isAtEnd_iff_ahead.1 atEnd) .blank {}
  · rw [token, if_neg atEnd]
    exact Lexer.run_eq_feed (Nat.le_of_eq r.left_eq.symm) .blank {}

theorem Reader.tokens_eq (n : Nat) (r : Reader) : r.tokens n = r.cursor.tokens n := by
  induction n generalizing r with
  | zero => rfl
  | succ n inductionHypothesis =>
    rw [tokens, Cursor.tokens, ← r.token_eq]
    rcases r.token with ⟨_ | scanned, next⟩
    · rfl
    · simp [inductionHypothesis]

/-- The tokens of a text are those of its cursor. -/
theorem tokenize_eq (source : String) :
    tokenize source = (Cursor.ofString source).tokens (source.length + 1) := by
  rw [tokenize, Reader.tokens_eq, Reader.left_eq, Reader.cursor_ofString, Cursor.ofString,
    String.length_toList]

end Rightflow
