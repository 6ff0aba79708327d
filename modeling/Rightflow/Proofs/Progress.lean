import Rightflow.Proofs.Rereading
import Rightflow.Proofs.Tokenizing

/-!
# Progress

Wherever the lexer has come to, behind tokens and behind failures, the next token takes at least one
of the characters that are left (`Reader.progresses_token`), and what was taken once is not given
back, although the automaton does give back single characters on its way.  So a text is read to its
end after at most as many readings as it has characters, and one more finds the end
(`reading_always_progresses`).

Where a reading leaves off is known from the cursor that it leaves (`Reader.token_eq`).  That a
cursor tells the place of its reader is because the reader stays in its text (`Reader.Valid.token`).

That reading stops is said by `Reader.Loops`, the loop over the tokens without a bound; the bound of
`Reader.tokens` is never what ends it.
-/

namespace Rightflow

/-! ## Readers stay in their text -/

namespace Reader

variable {source : String} {r next last : Reader} {taken further : List Char}

theorem Valid.skipLineWithin (valid : Valid source r) (n : Nat) :
    Valid source (skipLineWithin n r) := by
  induction n generalizing r with
  | zero => exact valid
  | succ n inductionHypothesis =>
    rw [Reader.skipLineWithin]
    cases r.peek? with
    | none => exact valid
    | some c =>
      dsimp only
      split
      · exact valid
      · exact inductionHypothesis valid.next

theorem Valid.leave (valid : Valid source r) (state : Lexer.State) :
    Valid source (Lexer.leave r state) := by
  unfold Lexer.leave
  split
  · exact valid.skipLineWithin _
  · exact valid

/-- The automaton reads and takes back, and so it stays in the text. -/
theorem Valid.run (valid : Valid source r) (n : Nat) (state : Lexer.State) (notes : Lexer.Notes) :
    Valid source (Lexer.run n state notes r).2 := by
  induction n generalizing r state notes with
  | zero =>
    by_cases closed : state = .closed
    · rw [closed]
      exact valid.leave .string
    · rw [Lexer.run]
      · exact valid.leave state
      · exact closed
  | succ n inductionHypothesis =>
    by_cases closed : state = .closed
    · rw [closed]
      exact valid.leave .string
    · rw [Lexer.run]
      · have valid' := valid.next
        generalize r.next = reading at valid'
        obtain ⟨_ | c, after⟩ := reading
        · exact valid'.leave state
        · dsimp only
          split
          · exact valid'
          · exact inductionHypothesis valid' _ _
          · exact valid'.unget.leave state
      · exact closed

/-- Reading a token leaves the reader in its text. -/
theorem Valid.token (valid : Valid source r) : Valid source r.token.2 := by
  unfold Reader.token
  split
  · exact valid.leave .blank
  · exact valid.run _ _ _

end Reader

/-- The characters that stand between a cursor and a later one. -/
structure Cursor.Takes (cur : Cursor) (taken : List Char) (next : Cursor) : Prop where
  ahead : cur.ahead = taken ++ next.ahead
  position : next.position = cur.position.after taken

namespace Cursor

variable {cur next last : Cursor} {taken further : List Char}

theorem Takes.refl (cur : Cursor) : cur.Takes [] cur := ⟨rfl, rfl⟩

theorem Takes.trans (first : cur.Takes taken next) (second : next.Takes further last) :
    cur.Takes (taken ++ further) last where
  ahead := by rw [first.ahead, second.ahead, List.append_assoc]
  position := by rw [second.position, first.position, Position.after_append]

theorem takes_skip (cur : Cursor) (n : Nat) : cur.Takes (cur.ahead.take n) (cur.skip n) :=
  ⟨(List.take_append_drop n cur.ahead).symm, rfl⟩

theorem takes_skipWhile (cur : Cursor) (p : Char → Bool) :
    cur.Takes (cur.ahead.takeWhile p) (cur.skipWhile p) :=
  ⟨List.takeWhile_append_dropWhile.symm, rfl⟩

theorem Takes.length_lt (takes : cur.Takes taken next) (nonempty : taken ≠ []) :
    next.ahead.length < cur.ahead.length := by
  have pos := List.length_pos_iff.2 nonempty
  rw [takes.ahead, List.length_append]
  omega

end Cursor

/-- What is no token takes a character all the same. -/
theorem Reading.pos_of_fault {c : Char} {rest : List Char} {cause : LexCause} {n : Nat}
    (read : Reading.front c rest = (.fault cause, n)) : 0 < n := by
  unfold Reading.front at read
  split at read
  · cases read
  · split at read
    · unfold Reading.number at read
      split at read <;> cases read
    · split at read
      · unfold Reading.string at read
        split at read <;> cases read
        exact Nat.succ_pos _
      · unfold Reading.symbol at read
        split at read
        · cases read
        · split at read <;> cases read
          exact Nat.add_pos_left Nat.one_pos _

/-- A cursor reads a token that stands for characters, or fails at some, or finds the end, before
which only white space was left. -/
theorem Cursor.token_cases (cur : Cursor) :
    (∃ scanned next taken, cur.token = (.ok scanned, next) ∧ scanned.token.form ≠ .finish ∧
      taken ≠ [] ∧ cur.Takes taken next) ∨
    (∃ e next taken, cur.token = (.error e, next) ∧ taken ≠ [] ∧ cur.Takes taken next) ∨
    (∃ next, cur.token = (.ok (.at .finish none next.position), next) ∧ IsGap cur.ahead ∧
      next.ahead = [] ∧ cur.Takes cur.ahead next) := by
  have skipped := cur.takes_skipWhile isBlank
  unfold token
  dsimp only
  split
  next nothing =>
    -- All that was ahead is white space.
    have whole : cur.ahead.takeWhile isBlank = cur.ahead := by
      simpa [nothing] using skipped.ahead.symm
    have blank : IsGap cur.ahead := by
      rw [← whole]
      exact fun c mem => List.mem_takeWhile_imp mem
    rw [whole] at skipped
    exact .inr (.inr ⟨_, rfl, blank, nothing, skipped⟩)
  next c rest visible =>
    have taken (n : Nat) : cur.Takes (cur.ahead.takeWhile isBlank ++ (c :: rest).take n)
        ((cur.skipWhile isBlank).skip n) := by
      rw [← visible]
      exact skipped.trans (takes_skip _ n)
    have nonempty {n : Nat} (pos : 0 < n) :
        cur.ahead.takeWhile isBlank ++ (c :: rest).take n ≠ [] := by
      obtain ⟨n, rfl⟩ := Nat.exists_eq_add_one_of_ne_zero (Nat.ne_of_gt pos)
      simp
    obtain ⟨lexeme, form, caution?, read, longest⟩ | ⟨n, read, -⟩ := front_readsFront c rest
    · rw [read]
      exact .inl ⟨_, _, _, rfl, longest.isLexeme.form_ne_finish,
        nonempty (List.length_pos_iff.2 longest.isLexeme.ne_nil), taken _⟩
    · rw [read]
      exact .inr (.inl ⟨_, _, _, rfl, nonempty (Reading.pos_of_fault read), taken n⟩)

/-! ## One reading -/

namespace Reader

variable {source : String} {r next last : Reader} {taken further : List Char}

/-- The characters that lie behind a reader and not yet behind an earlier one. -/
structure Takes (r : Reader) (taken : List Char) (next : Reader) : Prop where
  index : next.index = r.index + taken.length
  cursor : r.cursor.Takes taken next.cursor

theorem Takes.refl (r : Reader) : r.Takes [] r := ⟨rfl, .refl _⟩

theorem Takes.trans (first : r.Takes taken next) (second : next.Takes further last) :
    r.Takes (taken ++ further) last where
  index := by rw [second.index, first.index, List.length_append, Nat.add_assoc]
  cursor := first.cursor.trans second.cursor

/-- In the same text two readers are as far apart as what they see. -/
theorem Takes.of_cursor (valid : Valid source r) (valid' : Valid source next)
    (takes : r.cursor.Takes taken next.cursor) : r.Takes taken next where
  index := by
    have ahead := congrArg List.length takes.ahead
    rw [valid.cursor_eq, valid'.cursor_eq] at ahead
    simp only [Cursor.ofString, Cursor.skip_ahead, List.length_append, List.length_drop,
      String.length_toList] at ahead
    have inside := valid.index_le
    have inside' := valid'.index_le
    omega
  cursor := takes

/-- What a reading gives, and the reader that it leaves: a token that stands for characters, a
failure at some, or the end, before which only white space was left. -/
inductive Progresses (r : Reader) : Except LexError Scanned × Reader → Prop where
  | token {scanned : Scanned} {next : Reader} {taken : List Char}
      (notFinish : scanned.token.form ≠ .finish) (nonempty : taken ≠ [])
      (takes : r.Takes taken next) : Progresses r (.ok scanned, next)
  | failure {e : LexError} {next : Reader} {taken : List Char} (nonempty : taken ≠ [])
      (takes : r.Takes taken next) : Progresses r (.error e, next)
  | finish {next : Reader} (blank : IsGap r.cursor.ahead) (atEnd : next.isAtEnd = true)
      (takes : r.Takes r.cursor.ahead next) :
      Progresses r (.ok (.at .finish none next.position), next)

/-- Wherever a token is read, reading goes on. -/
theorem Valid.progresses_token (valid : Valid source r) : r.Progresses r.token := by
  have valid' := valid.token
  have same := r.token_eq
  generalize r.token = reading at valid' same
  obtain ⟨outcome, next⟩ := reading
  obtain ⟨scanned, cur, taken, read, notFinish, nonempty, takes⟩ |
    ⟨e, cur, taken, read, nonempty, takes⟩ | ⟨cur, read, blank, nothing, takes⟩ :=
      r.cursor.token_cases
  all_goals
    obtain ⟨rfl, rfl⟩ : outcome = _ ∧ next.cursor = cur := Prod.ext_iff.1 (same.trans read)
  · exact .token notFinish nonempty (.of_cursor valid valid' takes)
  · exact .failure nonempty (.of_cursor valid valid' takes)
  · exact .finish blank (isAtEnd_iff_ahead.2 nothing) (.of_cursor valid valid' takes)

theorem Progresses.exists_takes {outcome : Except LexError Scanned}
    (progresses : r.Progresses (outcome, next)) : ∃ taken, r.Takes taken next := by
  cases progresses with
  | token _ _ takes | failure _ takes | finish _ _ takes => exact ⟨_, takes⟩

/-- At the end of a text the end is found, and nothing changes. -/
theorem token_of_atEnd (atEnd : r.isAtEnd = true) :
    r.token = (.ok (.at .finish none r.position), r) :=
  if_pos atEnd

/-! ## Many readings -/

/-- The reader behind some readings of tokens, each of which may have failed. -/
def behindTokens (r : Reader) : Nat → Reader
  | 0 => r
  | n + 1 => (r.behindTokens n).token.2

theorem behindTokens_add (r : Reader) (j k : Nat) :
    r.behindTokens (j + k) = (r.behindTokens j).behindTokens k := by
  induction k with
  | zero => rfl
  | succ k inductionHypothesis =>
    rw [← Nat.add_assoc, behindTokens, inductionHypothesis, behindTokens]

theorem Valid.behindTokens (valid : Valid source r) (k : Nat) :
    Valid source (r.behindTokens k) := by
  induction k with
  | zero => exact valid
  | succ k inductionHypothesis => exact inductionHypothesis.token

/-- Readings give back no character that earlier ones have taken. -/
theorem Valid.exists_takes (valid : Valid source r) (k : Nat) :
    ∃ taken, r.Takes taken (r.behindTokens k) := by
  induction k with
  | zero => exact ⟨[], .refl r⟩
  | succ k inductionHypothesis =>
    obtain ⟨taken, takes⟩ := inductionHypothesis
    obtain ⟨further, next⟩ := (valid.behindTokens k).progresses_token.exists_takes
    exact ⟨taken ++ further, takes.trans next⟩

theorem behindTokens_of_atEnd (atEnd : r.isAtEnd = true) (k : Nat) : r.behindTokens k = r := by
  induction k with
  | zero => rfl
  | succ k inductionHypothesis => rw [behindTokens, inductionHypothesis, token_of_atEnd atEnd]

/-! ## The loop over the tokens -/

/-- Reading token by token comes to an end after some readings: at the first failure, or at the
token that means the end of the text. -/
inductive Loops : Reader → Nat → Except LexError (List Scanned) → Prop where
  | failure {r next : Reader} {e : LexError} (read : r.token = (.error e, next)) :
      Loops r 1 (.error e)
  | finish {r next : Reader} {scanned : Scanned} (read : r.token = (.ok scanned, next))
      (atEnd : scanned.token.form = .finish) : Loops r 1 (.ok [scanned])
  | further {r next : Reader} {scanned : Scanned} {n : Nat}
      {result : Except LexError (List Scanned)} (read : r.token = (.ok scanned, next))
      (notAtEnd : scanned.token.form ≠ .finish) (rest : Loops next n result) :
      Loops r (n + 1) (result.map (scanned :: ·))

theorem Loops.unique {n k : Nat} {first second : Except LexError (List Scanned)}
    (one : r.Loops n first) (other : r.Loops k second) : n = k ∧ first = second := by
  induction one generalizing k second with
  | failure read =>
    cases other with
    | failure read' => cases read.symm.trans read'; exact ⟨rfl, rfl⟩
    | finish read' | further read' => cases read.symm.trans read'
  | finish read atEnd =>
    cases other with
    | failure read' => cases read.symm.trans read'
    | finish read' => cases read.symm.trans read'; exact ⟨rfl, rfl⟩
    | further read' notAtEnd => cases read.symm.trans read'; exact absurd atEnd notAtEnd
  | further read notAtEnd _ ih =>
    cases other with
    | failure read' => cases read.symm.trans read'
    | finish read' atEnd => cases read.symm.trans read'; exact absurd atEnd notAtEnd
    | further read' _ rest' =>
      cases read.symm.trans read'
      obtain ⟨rfl, rfl⟩ := ih rest'
      exact ⟨rfl, rfl⟩

/-- There are as many tokens as there were readings. -/
theorem Loops.length_eq {n : Nat} {result : Except LexError (List Scanned)}
    (loops : r.Loops n result) : ∀ scanned, result = .ok scanned → scanned.length = n := by
  induction loops with
  | failure => rintro _ ⟨⟩
  | finish => rintro _ ⟨⟩; rfl
  | further _ _ _ ih =>
    intro scanned answered
    obtain ⟨others, rfl, rfl⟩ := exists_of_map_cons_eq_ok answered
    rw [List.length_cons, ih others rfl]

/-- The loop ends, since fewer characters are left behind every token, and a bound above their
number does not cut it short. -/
theorem Valid.exists_loops_tokens (valid : Valid source r) {bound : Nat} (enough : r.left < bound) :
    ∃ n ≤ r.left + 1, r.Loops n (r.tokens bound) := by
  induction bound generalizing r with
  | zero => exact absurd enough (Nat.not_lt_zero _)
  | succ bound inductionHypothesis =>
    have progress := valid.progresses_token
    rw [tokens]
    cases read : r.token with
    | mk outcome next =>
      have valid' : Valid source next := by simpa [read] using valid.token
      rw [read] at progress
      cases progress with
      | failure _ _ => exact ⟨1, Nat.le_add_left 1 _, .failure read⟩
      | finish _ _ _ => exact ⟨1, Nat.le_add_left 1 _, .finish read rfl⟩
      | @token scanned _ taken notFinish nonempty takes =>
        -- A token takes a character, so the bound that is left is enough for what is left.
        have shorter : next.left < r.left := by
          rw [left_eq, left_eq]
          exact takes.cursor.length_lt nonempty
        have fits : next.left < bound := by omega
        obtain ⟨n, few, rest⟩ := inductionHypothesis valid' fits
        dsimp only
        rw [if_neg notFinish]
        exact ⟨n + 1, by omega, .further read notFinish rest⟩

end Reader

/-- The lexer makes progress, whatever it meets, and it can go on behind every failure.  From the
beginning of the text and behind any number of readings, the next one gives a token and takes at
least one character, or fails and takes at least one, or finds the end behind nothing but white
space.  No character is given back to a later reading.  When nothing is left, every further reading
finds the end, without a caution and always behind the last character of the text, and the reader
stays there.  So the loop over the tokens comes to its end, which is that of `tokenize`, after at
most one reading more than there are characters, and gives as many tokens at most. -/
theorem reading_always_progresses (source : String) :
    let start := Reader.ofString source
    (∀ k, (start.behindTokens k).Progresses (start.behindTokens k).token) ∧
    (∀ j k, ∃ taken, (start.behindTokens j).Takes taken (start.behindTokens (j + k))) ∧
    (∀ k, (start.behindTokens k).isAtEnd = true → ∀ j, (start.behindTokens (k + j)).token =
      (.ok (.at .finish none (Position.start.after source.toList)), start.behindTokens k)) ∧
    ∃ n ≤ source.length + 1,
      (∀ k result, start.Loops k result ↔ k = n ∧ result = tokenize source) ∧
      ∀ scanned, tokenize source = .ok scanned → scanned.length = n := by
  intro start
  have valid : start.Valid source := Reader.valid_ofString source
  refine ⟨fun k => (valid.behindTokens k).progresses_token, fun j k => ?_, fun k atEnd j => ?_, ?_⟩
  · rw [Reader.behindTokens_add]
    exact (valid.behindTokens j).exists_takes k
  · -- A valid reader at the end stands where all of the text leads.
    have reached := valid.behindTokens k
    have whole : source.toList.take (start.behindTokens k).index = source.toList := by
      rw [reached.isAtEnd_iff.1 atEnd, ← String.length_toList, List.take_length]
    rw [Reader.behindTokens_add, Reader.behindTokens_of_atEnd atEnd, Reader.token_of_atEnd atEnd,
      reached.position_eq, whole]
  · obtain ⟨n, few, loops⟩ := valid.exists_loops_tokens (Nat.lt_succ_self start.left)
    have all : start.left = source.length := by
      rw [Reader.left_eq, Reader.cursor_ofString, Cursor.ofString, String.length_toList]
    refine ⟨n, all ▸ few, fun k result => ⟨fun other => other.unique loops, ?_⟩, loops.length_eq⟩
    rintro ⟨rfl, rfl⟩
    exact loops

/-- Half a symbol takes the next character along, and behind it only the end is found, again and
again. -/
theorem half_symbol_is_left_behind :
    (Reader.ofString "&x \n").token.1 = .error ⟨.unexpectedCharacter '&', ⟨1, 1⟩⟩ ∧
    ((Reader.ofString "&x \n").behindTokens 2).isAtEnd = true ∧
    (∀ j, ((Reader.ofString "&x \n").behindTokens (2 + j)).token =
      (.ok (.at .finish none ⟨2, 1⟩), (Reader.ofString "&x \n").behindTokens 2)) ∧
    tokenize "&x \n" = .error ⟨.unexpectedCharacter '&', ⟨1, 1⟩⟩ ∧
    ∃ n ≤ 5, ∀ k result, (Reader.ofString "&x \n").Loops k result ↔
      k = n ∧ result = tokenize "&x \n" := by
  obtain ⟨-, -, atEnd, n, few, loops, -⟩ := reading_always_progresses "&x \n"
  exact ⟨rfl, rfl, atEnd 2 rfl, rfl, n, few, loops⟩

end Rightflow
