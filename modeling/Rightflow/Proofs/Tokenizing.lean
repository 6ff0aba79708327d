import Rightflow.Proofs.Automaton

/-!
# Tokenization by the longest match

`LongestMatch` cuts a text into gaps of white space and longest lexemes, up to its end or to the
first place where there is no lexeme.  `tokenize` answers what this relation answers, and from its
tokens the text can be put together again (`tokenize_takes_longest_lexemes`).
-/

namespace Rightflow

/-! ## Positions in reading order -/

/-- The position comes first in the reading order: on an earlier line, or on the same line further
left. -/
def Position.Before (p q : Position) : Prop :=
  p.line < q.line ∨ p.line = q.line ∧ p.column < q.column

namespace Position

theorem before_advance (p : Position) (c : Char) : p.Before (p.advance c) := by
  unfold advance Before
  split <;> simp

theorem Before.trans {p q r : Position} (first : p.Before q) (second : q.Before r) :
    p.Before r := by
  unfold Before at *
  omega

theorem eq_or_before_after (p : Position) (text : List Char) :
    p.after text = p ∨ p.Before (p.after text) := by
  induction text generalizing p with
  | nil => exact .inl rfl
  | cons c text ih =>
    right
    rw [after_cons]
    obtain same | further := ih (p.advance c)
    · rw [same]
      exact p.before_advance c
    · exact (p.before_advance c).trans further

theorem before_after (p : Position) {text : List Char} (nonempty : text ≠ []) :
    p.Before (p.after text) := by
  obtain ⟨c, cs, rfl⟩ := List.exists_cons_of_ne_nil nonempty
  rw [after_cons]
  obtain same | further := (p.advance c).eq_or_before_after cs
  · rw [same]
    exact p.before_advance c
  · exact (p.before_advance c).trans further

end Position

/-! ## The longest match -/

/-- Only white space. -/
def IsGap (text : List Char) : Prop := ∀ c ∈ text, isBlank c = true

/-- What a text that begins at a position is made of: longest lexemes with gaps before them.  It
fails at the first place where no lexeme begins. -/
inductive LongestMatch : Position → List Char → Except LexError (List Scanned) → Prop where
  | finish {p : Position} {gap : List Char} (blank : IsGap gap) :
      LongestMatch p gap (.ok [.at .finish none (p.after gap)])
  | fault {p : Position} {gap rest : List Char} {c : Char} (blank : IsGap gap)
      (visible : isBlank c = false)
      (none : ∀ lexeme form caution?, Lexeme lexeme form caution? → ¬ lexeme <+: c :: rest) :
      LongestMatch p (gap ++ c :: rest) (.error ⟨.missing c, p.after gap⟩)
  | lexeme {p : Position} {gap lexeme rest : List Char} {form : Form} {caution? : Option Caution}
      {result : Except LexError (List Scanned)} (blank : IsGap gap)
      (longest : Longest (lexeme ++ rest) lexeme form caution?)
      (further : LongestMatch (p.after (gap ++ lexeme)) rest result) :
      LongestMatch p (gap ++ (lexeme ++ rest))
        (result.map (.at form caution? (p.after gap) :: ·))

theorem Lexeme.visible {text : List Char} {form : Form} {caution? : Option Caution}
    (lexeme : Lexeme text form caution?) (rest : List Char) :
    ∃ c cs, text ++ rest = c :: cs ∧ isBlank c = false := by
  cases lexeme with
  | word letter _ =>
    exact ⟨_, _, rfl, isBlank_eq_false_of_isNameChar (isNameChar_of_isLetter letter)⟩
  | integer digits => exact ⟨_, _, rfl, isBlank_eq_false_of_isDigit _ (digits _ (by simp))⟩
  | decimal digits _ => exact ⟨_, _, rfl, isBlank_eq_false_of_isDigit _ (digits _ (by simp))⟩
  | string | comment => exact ⟨_, _, rfl, by decide⟩
  | symbol s =>
    obtain ⟨c, cs, spelled, -⟩ := s.spelling_eq_cons
    exact ⟨c, cs ++ rest, by simp [spelled], s.isBlank_eq_false c (by simp [spelled])⟩

theorem Form.ofWord_ne_finish (word : String) : Form.ofWord word ≠ .finish := by
  unfold ofWord
  split
  · simp
  · split
    · simp
    · split <;> simp

theorem Lexeme.form_ne_finish {text : List Char} {form : Form} {caution? : Option Caution}
    (lexeme : Lexeme text form caution?) : form ≠ .finish := by
  cases lexeme with
  | word => exact Form.ofWord_ne_finish _
  | integer | decimal | string | symbol | comment => simp

/-- Every text has a longest match. -/
theorem exists_longestMatch (p : Position) (text : List Char) :
    ∃ result, LongestMatch p text result := by
  -- What is left behind a lexeme is shorter, since no lexeme is empty.
  induction length : text.length using Nat.strongRecOn generalizing p text with
  | ind n ih =>
    have blank : IsGap (text.takeWhile isBlank) := fun c mem => List.mem_takeWhile_imp mem
    have whole : text.takeWhile isBlank ++ text.dropWhile isBlank = text :=
      List.takeWhile_append_dropWhile
    generalize text.takeWhile isBlank = gap at blank whole
    cases left : text.dropWhile isBlank with
    | nil =>
      rw [left, List.append_nil] at whole
      rw [← whole]
      exact ⟨_, .finish blank⟩
    | cons c rest =>
      rw [left] at whole
      have visible : isBlank c = false := by
        have first := List.head_dropWhile_not isBlank (l := text) (by simp [left])
        simpa [left] using first
      obtain ⟨lexeme, form, caution?, -, longest⟩ | ⟨_, -, none⟩ := front_readsFront c rest
      · obtain ⟨after, split⟩ := longest.atFront
        rw [← split] at whole longest
        have shorter : after.length < n := by
          have pos := List.length_pos_iff.2 longest.isLexeme.ne_nil
          rw [← length, ← whole]
          simp
          omega
        obtain ⟨result, further⟩ := ih after.length shorter (p.after (gap ++ lexeme)) after rfl
        rw [← whole]
        exact ⟨_, .lexeme blank longest further⟩
      · rw [← whole]
        exact ⟨_, .fault blank visible none⟩

namespace Cursor

variable {p : Position} {gap : List Char}

theorem skipWhile_gap (text : List Char) (blank : IsGap gap)
    (visible : ∀ c cs, text = c :: cs → isBlank c = false) :
    skipWhile ⟨gap ++ text, p⟩ isBlank = ⟨text, p.after gap⟩ := by
  have taken : text.takeWhile isBlank = [] := by
    cases text with
    | nil => rfl
    | cons c cs => simp [visible c cs rfl]
  have dropped : text.dropWhile isBlank = text := by
    cases text with
    | nil => rfl
    | cons c cs => simp [visible c cs rfl]
  rw [skipWhile, List.takeWhile_append_of_pos blank, List.dropWhile_append_of_pos blank, taken,
    dropped, List.append_nil]

theorem token_finish (blank : IsGap gap) :
    (token ⟨gap, p⟩).1 = .ok (.at .finish none (p.after gap)) := by
  have skipped := skipWhile_gap (p := p) [] blank nofun
  rw [List.append_nil] at skipped
  rw [token, skipped]

theorem token_fault {c : Char} {rest : List Char} (blank : IsGap gap) (visible : isBlank c = false)
    (none : ∀ lexeme form caution?, Lexeme lexeme form caution? → ¬ lexeme <+: c :: rest) :
    (token ⟨gap ++ c :: rest, p⟩).1 = .error ⟨.missing c, p.after gap⟩ := by
  have skipped := skipWhile_gap (p := p) (c :: rest) blank (by rintro _ _ ⟨⟩; exact visible)
  obtain ⟨lexeme, form, caution?, -, longest⟩ | ⟨n, read, -⟩ := front_readsFront c rest
  · exact absurd longest.atFront (none _ _ _ longest.isLexeme)
  · rw [token, skipped]
    simp only [read, Reading.answer]

theorem token_lexeme {lexeme rest : List Char} {form : Form} {caution? : Option Caution}
    (blank : IsGap gap) (longest : Longest (lexeme ++ rest) lexeme form caution?) :
    token ⟨gap ++ (lexeme ++ rest), p⟩ =
      (.ok (.at form caution? (p.after gap)), ⟨rest, p.after (gap ++ lexeme)⟩) := by
  obtain ⟨c, cs, split, visible⟩ := longest.isLexeme.visible rest
  have skipped := skipWhile_gap (p := p) (lexeme ++ rest) blank
    (by rw [split]; rintro _ _ ⟨⟩; exact visible)
  rw [split] at longest
  rw [token, skipped]
  simp only [split, longest.front]
  rw [← split]
  simp [Reading.answer, skip, Position.after_append]

end Cursor

namespace Cursor

variable {p : Position} {gap : List Char}

/-- Reading the tokens off a text answers its longest match. -/
theorem tokens_of_longestMatch {text : List Char} {result : Except LexError (List Scanned)}
    (longestMatch : LongestMatch p text result) {n : Nat} (enough : text.length < n) :
    tokens n ⟨text, p⟩ = result := by
  induction longestMatch generalizing n with
  | @finish p gap blank =>
    obtain ⟨n, rfl⟩ := Nat.exists_eq_add_one_of_ne_zero (Nat.ne_zero_of_lt enough)
    rw [tokens]
    rcases run : token ⟨gap, p⟩ with ⟨_, next⟩
    obtain rfl : _ = _ := (congrArg (·.1) run).symm.trans (token_finish blank)
    rfl
  | @fault p gap rest c blank visible none =>
    obtain ⟨n, rfl⟩ := Nat.exists_eq_add_one_of_ne_zero (Nat.ne_zero_of_lt enough)
    rw [tokens]
    rcases run : token ⟨gap ++ c :: rest, p⟩ with ⟨_, next⟩
    obtain rfl : _ = _ := (congrArg (·.1) run).symm.trans (token_fault blank visible none)
    rfl
  | @lexeme p gap lexeme rest form caution? result blank longest further ih =>
    obtain ⟨n, rfl⟩ := Nat.exists_eq_add_one_of_ne_zero (Nat.ne_zero_of_lt enough)
    have pos := List.length_pos_iff.2 longest.isLexeme.ne_nil
    simp only [List.length_append] at enough
    rw [tokens, token_lexeme blank longest]
    simp only [Scanned.at, longest.isLexeme.form_ne_finish, if_false]
    rw [ih (by omega)]

end Cursor

/-! ## What a text is put together from -/

/-- A token, the characters that it was read from, and the white space before them. -/
structure Piece where
  gap : List Char
  lexeme : List Char
  scanned : Scanned

/-- The characters of a piece. -/
def Piece.text (piece : Piece) : List Char := piece.gap ++ piece.lexeme

/-- A piece that begins at a position: white space and one lexeme, whose token stands where the
lexeme begins. -/
structure Piece.WellPlaced (piece : Piece) (p : Position) : Prop where
  blank : IsGap piece.gap
  nonempty : piece.lexeme ≠ []
  isLexeme : ∃ form caution?, Lexeme piece.lexeme form caution? ∧
    piece.scanned = .at form caution? (p.after piece.gap)

/-- The text consists of the lexemes of its tokens, in their order, with white space between them.
Every token stands where reading from the position to its lexeme leads, and the one that means the
end stands behind all of the text. -/
def Lossless (p : Position) (text : List Char) (scanned : List Scanned) : Prop :=
  ∃ (pieces : List Piece) (last : List Char),
    text = pieces.flatMap Piece.text ++ last ∧ IsGap last ∧
    scanned = pieces.map (·.scanned) ++ [.at .finish none (p.after text)] ∧
    ∀ before piece after, pieces = before ++ piece :: after →
      piece.WellPlaced (p.after (before.flatMap Piece.text))

/-- More tokens are answered behind the first one only if there was an answer for them. -/
theorem exists_of_map_cons_eq_ok {first : Scanned} {result : Except LexError (List Scanned)}
    {scanned : List Scanned} (answered : result.map (first :: ·) = .ok scanned) :
    ∃ others, result = .ok others ∧ scanned = first :: others := by
  cases result with
  | error e => cases answered
  | ok others =>
    cases answered
    exact ⟨others, rfl, rfl⟩

theorem LongestMatch.lossless {p : Position} {text : List Char}
    {result : Except LexError (List Scanned)} (longestMatch : LongestMatch p text result) :
    ∀ scanned, result = .ok scanned → Lossless p text scanned := by
  induction longestMatch with
  | finish blank =>
    rintro _ ⟨⟩
    exact ⟨[], _, rfl, blank, rfl, by simp⟩
  | fault => rintro _ ⟨⟩
  | @lexeme p gap lexeme rest form caution? result blank longest further ih =>
    intro scanned answered
    obtain ⟨others, rfl, rfl⟩ := exists_of_map_cons_eq_ok answered
    obtain ⟨pieces, last, whole, blankLast, rfl, placed⟩ := ih others rfl
    refine ⟨⟨gap, lexeme, .at form caution? (p.after gap)⟩ :: pieces, last, ?_, blankLast, ?_, ?_⟩
    · simp [Piece.text, whole]
    · simp [Position.after_append]
    · intro before piece after split
      -- The first piece is the lexeme just read; those behind it are placed from its end.
      cases before with
      | nil =>
        obtain ⟨rfl, -⟩ : _ = piece ∧ pieces = after := by simpa using split
        exact ⟨blank, longest.isLexeme.ne_nil, form, caution?, longest.isLexeme, rfl⟩
      | cons first before =>
        obtain ⟨rfl, others⟩ : _ = first ∧ pieces = before ++ piece :: after := by
          simpa using split
        have later := placed before piece after others
        rw [← Position.after_append] at later
        simpa [Piece.text] using later

/-- The tokens of a text stand one behind the other. -/
theorem LongestMatch.increasing {p : Position} {text : List Char}
    {result : Except LexError (List Scanned)} (longestMatch : LongestMatch p text result) :
    ∀ scanned, result = .ok scanned →
      (∀ s ∈ scanned, s.token.position = p ∨ p.Before s.token.position) ∧
      scanned.Pairwise fun s t => s.token.position.Before t.token.position := by
  induction longestMatch with
  | @finish p gap blank =>
    rintro _ ⟨⟩
    exact ⟨by simpa [Scanned.at] using p.eq_or_before_after gap, by simp⟩
  | fault => rintro _ ⟨⟩
  | @lexeme p gap lexeme rest form caution? result blank longest further ih =>
    intro scanned answered
    obtain ⟨others, rfl, rfl⟩ := exists_of_map_cons_eq_ok answered
    obtain ⟨behind, increasing⟩ := ih others rfl
    have reached := p.eq_or_before_after gap
    have passed := (p.after gap).before_after longest.isLexeme.ne_nil
    rw [← Position.after_append] at passed
    have later : ∀ s ∈ others, (p.after gap).Before s.token.position := by
      intro s mem
      obtain same | further := behind s mem
      · rw [same]
        exact passed
      · exact passed.trans further
    refine ⟨List.forall_mem_cons.2 ⟨reached, ?_⟩, List.pairwise_cons.2 ⟨later, increasing⟩⟩
    intro s mem
    right
    obtain same | before := reached
    · rw [← same]
      exact later s mem
    · exact before.trans (later s mem)

theorem tokenize_of_longestMatch {source : String} {result : Except LexError (List Scanned)}
    (longestMatch : LongestMatch .start source.toList result) : tokenize source = result := by
  rw [tokenize_eq]
  have enough : source.toList.length < source.length + 1 :=
    Nat.lt_succ_of_le (Nat.le_of_eq String.length_toList)
  exact Cursor.tokens_of_longestMatch longestMatch enough

theorem longestMatch_tokenize (source : String) :
    LongestMatch .start source.toList (tokenize source) := by
  obtain ⟨result, longestMatch⟩ := exists_longestMatch .start source.toList
  rwa [tokenize_of_longestMatch longestMatch]

/-- Tokenization takes the longest lexemes and loses nothing: its answer is the longest match of the
text, and on success the text consists of what the tokens were read from, each at its position and
one behind the other. -/
theorem tokenize_takes_longest_lexemes (source : String) :
    (∀ result, tokenize source = result ↔ LongestMatch .start source.toList result) ∧
    ∀ scanned, tokenize source = .ok scanned →
      Lossless .start source.toList scanned ∧
      scanned.Pairwise fun s t => s.token.position.Before t.token.position := by
  have matched := longestMatch_tokenize source
  refine ⟨fun result => ⟨?_, tokenize_of_longestMatch⟩, fun scanned success => ⟨?_, ?_⟩⟩
  · rintro rfl
    exact matched
  · exact matched.lossless scanned success
  · exact (matched.increasing scanned success).2

/-- The tokens of a text of two lines, with a comment on the first one. -/
def twoLinesScanned : List Scanned :=
  [⟨⟨.name "x", ⟨1, 1⟩⟩, none⟩, ⟨⟨.symbol .assign, ⟨1, 2⟩⟩, none⟩, ⟨⟨.comment, ⟨1, 5⟩⟩, none⟩,
   ⟨⟨.literal (.int 12), ⟨2, 2⟩⟩, none⟩, ⟨⟨.finish, ⟨2, 4⟩⟩, none⟩]

theorem twoLines_tokenize_lossless :
    tokenize "x=> // y\n 12" = .ok twoLinesScanned ∧
      Lossless .start "x=> // y\n 12".toList twoLinesScanned := by
  have success : tokenize "x=> // y\n 12" = .ok twoLinesScanned := rfl
  exact ⟨success, ((tokenize_takes_longest_lexemes _).2 _ success).1⟩

end Rightflow
