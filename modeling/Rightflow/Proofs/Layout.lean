import Rightflow.Proofs.EvaluationPositions
import Rightflow.Proofs.ParserPositions
import Rightflow.Proofs.Spelling

/-!
# Layout

Between two tokens of a text, white space and comments may be put without changing what the text
means.  `Spread` relates a text to what it becomes, and `layout_does_not_matter` says that both are
read as the same program, which does the same.

The lexemes of a text stay what they are since white space comes first: a lexeme that is followed by
white space, or by the character that it was followed by, is not read any further than before
(`Longest.congr_head`).  A comment is the exception.  It takes in what is put behind it, up to the
first end of a line, and what is left is filler as well (`Filler.cut`).  From the tokens on, nothing
depends on where they stand.
-/

namespace Rightflow

/-! ## Padding -/

/-- White space and comments, each of which ends with its line. -/
inductive Filler : List Char → Prop where
  | nil : Filler []
  | blank {c : Char} {rest : List Char} (blank : isBlank c = true) (further : Filler rest) :
      Filler (c :: rest)
  | comment {line rest : List Char} (inLine : ∀ d ∈ line, d ≠ '\n') (further : Filler rest) :
      Filler ('/' :: '/' :: (line ++ '\n' :: rest))

/-- What may be put between tokens: white space, which filler may follow. -/
def IsPadding (text : List Char) : Prop :=
  ∃ c rest, text = c :: rest ∧ isBlank c = true ∧ Filler rest

/-- White space, and what it becomes when padding is put into it. -/
inductive Widened : List Char → List Char → Prop where
  | nil : Widened [] []
  | keep (c : Char) {gap gap' : List Char} (further : Widened gap gap') :
      Widened (c :: gap) (c :: gap')
  | pad {padding gap gap' : List Char} (isPadding : IsPadding padding)
      (further : Widened gap gap') : Widened gap (padding ++ gap')

/-- A text that consists of tokens, and what it becomes when padding is put between them. -/
inductive Spread : List Char → List Char → Prop where
  | finish {gap gap' : List Char} (blank : IsGap gap) (widened : Widened gap gap') :
      Spread gap gap'
  | lexeme {gap gap' lexeme rest rest' : List Char} {form : Form} {caution? : Option Caution}
      (blank : IsGap gap) (widened : Widened gap gap')
      (longest : Longest (lexeme ++ rest) lexeme form caution?) (further : Spread rest rest') :
      Spread (gap ++ (lexeme ++ rest)) (gap' ++ (lexeme ++ rest'))

theorem Widened.refl (gap : List Char) : Widened gap gap := by
  induction gap with
  | nil => exact .nil
  | cons c gap inductionHypothesis => exact .keep c inductionHypothesis

/-- Every text that can be read to its end is spread to itself. -/
theorem LongestMatch.spread {p : Position} {text : List Char}
    {result : Except LexError (List Scanned)} (longestMatch : LongestMatch p text result) :
    ∀ scanned, result = .ok scanned → Spread text text := by
  induction longestMatch with
  | finish blank => exact fun _ _ => .finish blank (.refl _)
  | fault => rintro _ ⟨⟩
  | @lexeme p gap lexeme rest form caution? result blank longest further inductionHypothesis =>
    intro scanned answered
    obtain ⟨others, rfl, -⟩ := exists_of_map_cons_eq_ok answered
    exact .lexeme blank (.refl gap) longest (inductionHypothesis others rfl)

/-- Padding may be put before a text that is spread. -/
theorem Spread.pad {padding text text' : List Char} (spread : Spread text text')
    (isPadding : IsPadding padding) : Spread text (padding ++ text') := by
  cases spread with
  | finish blank widened => exact .finish blank (.pad isPadding widened)
  | lexeme blank widened longest further =>
    rw [← List.append_assoc padding]
    exact .lexeme blank (.pad isPadding widened) longest further

theorem IsPadding.filler {padding : List Char} (isPadding : IsPadding padding) :
    Filler padding := by
  obtain ⟨c, rest, rfl, blank, filler⟩ := isPadding
  exact .blank blank filler

/-- Filler without its first line is filler. -/
theorem Filler.cut {filler : List Char} (isFiller : Filler filler) :
    (∀ d ∈ filler, d ≠ '\n') ∨ ∃ line rest, filler = line ++ '\n' :: rest ∧
      (∀ d ∈ line, d ≠ '\n') ∧ Filler rest := by
  induction isFiller with
  | nil => exact .inl nofun
  | @blank c rest blank further inductionHypothesis =>
    by_cases newline : c = '\n'
    · subst newline
      exact .inr ⟨[], rest, rfl, nofun, further⟩
    obtain inLine | ⟨line, rest, rfl, inLine, filler⟩ := inductionHypothesis
    · exact .inl (List.forall_mem_cons.2 ⟨newline, inLine⟩)
    · exact .inr ⟨c :: line, rest, rfl, List.forall_mem_cons.2 ⟨newline, inLine⟩, filler⟩
  | @comment line rest inLine further =>
    refine .inr ⟨'/' :: '/' :: line, rest, rfl, ?_, further⟩
    exact List.forall_mem_cons.2 ⟨by decide, List.forall_mem_cons.2 ⟨by decide, inLine⟩⟩

/-! ## How far a lexeme is read -/

section Next

variable {c b : Char} {cs more : List Char}

/-- Whether a lexeme begins with the character, goes on with some others and ends with the last. -/
def HasNext (c : Char) (cs : List Char) (b : Char) : Prop :=
  ∃ form caution?, Lexeme (c :: (cs ++ [b])) form caution?

theorem forall_mem_upTo {P : Char → Prop} (all : ∀ d ∈ cs ++ b :: more, P d) :
    ∀ d ∈ cs ++ [b], P d := by
  obtain ⟨before, behind⟩ := List.forall_mem_append.1 all
  exact List.forall_mem_append.2 ⟨before, List.forall_mem_singleton.2 (behind b List.mem_cons_self)⟩

theorem word_next (letter : isLetter c = true) (longer : Tail c (cs ++ b :: more)) :
    HasNext c cs b := by
  have named : ∀ d ∈ cs ++ b :: more, isNameChar d = true := by simpa [Tail, letter] using longer
  exact ⟨_, _, .word letter (forall_mem_upTo named)⟩

theorem number_next (digit : c.isDigit = true) (tail : Tail c cs)
    (longer : Tail c (cs ++ b :: more)) : HasNext c cs b := by
  obtain all | ⟨ds, places, split, digits, further⟩ := tail_of_digit digit longer
  · exact ⟨_, _, .integer (List.forall_mem_cons.2 ⟨digit, forall_mem_upTo all⟩)⟩
  obtain whole | ⟨ds', places', rfl, digits', further'⟩ := tail_of_digit digit tail
  · by_cases last : b.isDigit = true
    · have all := List.forall_mem_append.2 ⟨whole, List.forall_mem_singleton.2 last⟩
      exact ⟨_, _, .integer (List.forall_mem_cons.2 ⟨digit, all⟩)⟩
    · -- Both splits are at the first character that is no digit, which is the point.
      have dropped := (splitAt_point places digits).2
      rw [← split, List.dropWhile_append_of_pos whole, List.dropWhile_cons_of_neg last] at dropped
      obtain ⟨rfl, -⟩ := List.cons.inj dropped
      exact ⟨_, _, .decimal (List.forall_mem_cons.2 ⟨digit, whole⟩) (show ∀ d ∈ [], _ by simp)⟩
  · obtain ⟨taken, dropped⟩ := splitAt_point places digits
    rw [← split, List.append_assoc, List.cons_append] at taken dropped
    obtain ⟨taken', dropped'⟩ := splitAt_point (places' ++ b :: more) digits'
    obtain rfl : ds' = ds := taken'.symm.trans taken
    obtain rfl : places' ++ b :: more = places := by
      simpa using dropped'.symm.trans dropped
    have decimal := Lexeme.decimal (List.forall_mem_cons.2 ⟨digit, digits⟩)
      (forall_mem_upTo further)
    exact ⟨_, _, by simpa using decimal⟩

/-- Nothing goes on behind the closing quote of a string. -/
theorem string_ends (tail : Tail '"' cs) : ¬ Tail '"' (cs ++ b :: more) := by
  intro longer
  obtain ⟨body, content, rfl, quoted⟩ := tail
  obtain ⟨body', content', split, quoted'⟩ := longer
  have first := stringContent_append quoted (b :: more)
  rw [List.append_assoc, List.singleton_append] at split
  rw [split, stringContent_append quoted' []] at first
  have length := congrArg List.length split
  simp only [Prod.mk.injEq] at first
  simp at length
  omega

/-- Of the symbols only `->>` has more than two characters. -/
theorem Symbol.eq_bindFront {s : Symbol} (long : 2 < s.spelling.length) : s = .bindFront := by
  cases s <;> simp [spelling] at long ⊢

theorem spelling_next {s : Symbol} (spelled : s.spelling = c :: (cs ++ b :: more)) :
    HasNext c cs b := by
  cases more with
  | nil =>
    have symbol := Lexeme.symbol s
    rw [spelled] at symbol
    exact ⟨_, _, symbol⟩
  | cons b' more =>
    -- The symbol goes on by two characters or more, and so begins with another one, `->`.
    have length := congrArg List.length spelled
    simp only [List.length_cons, List.length_append] at length
    obtain rfl := Symbol.eq_bindFront (s := s) (by omega)
    have characters : ['-', '>', '>'] = c :: (cs ++ b :: b' :: more) := spelled
    cases cs with
    | nil =>
      obtain ⟨rfl, rfl, -⟩ : '-' = c ∧ '>' = b ∧ _ := by simpa using characters
      exact ⟨_, _, .symbol .call⟩
    | cons d cs =>
      have three : 3 = (d :: cs).length + (more.length + 1 + 1) + 1 := length
      simp at three
      omega

theorem symbol_next (notLetter : isLetter c = false) (notDigit : c.isDigit = false)
    (notQuote : c ≠ '"') (tail : Tail c cs) (longer : Tail c (cs ++ b :: more)) :
    HasNext c cs b := by
  obtain ⟨t, spelled⟩ | ⟨rfl, ds, split, line⟩ := tail_of_other notLetter notDigit notQuote longer
  · obtain ⟨s, spelled'⟩ | ⟨rfl, ds, rfl, -⟩ := tail_of_other notLetter notDigit notQuote tail
    · exact spelling_next spelled
    · exfalso
      cases t <;> simp [Symbol.spelling] at spelled
  · cases cs with
    | nil =>
      obtain ⟨rfl, rfl⟩ := List.cons.inj split
      exact ⟨_, _, .comment (show ∀ d ∈ [], _ by simp)⟩
    | cons d cs =>
      obtain ⟨rfl, rfl⟩ := List.cons.inj split
      exact ⟨_, _, .comment (forall_mem_upTo line)⟩

/-- A lexeme that goes on to a longer one goes on by one character. -/
theorem Lexeme.exists_next {text : List Char} {form form' : Form}
    {caution? caution?' : Option Caution} (lexeme : Lexeme text form caution?)
    (longer : Lexeme (text ++ b :: more) form' caution?') :
    ∃ form'' caution?'', Lexeme (text ++ [b]) form'' caution?'' := by
  obtain ⟨c, cs, rfl, tail⟩ := lexeme.exists_eq_cons
  obtain ⟨_, _, ⟨⟩, tail'⟩ := longer.exists_eq_cons
  by_cases letter : isLetter c = true
  · exact word_next letter tail'
  by_cases digit : c.isDigit = true
  · exact number_next digit tail tail'
  by_cases quote : c = '"'
  · subst quote
    exact absurd tail' (string_ends tail)
  · exact symbol_next (by simpa using letter) (by simpa using digit) quote tail tail'

end Next

/-- Whether a lexeme is the longest one depends on no more than the next character. -/
theorem Longest.congr_head {lexeme rest rest' : List Char} {form : Form}
    {caution? : Option Caution} (longest : Longest (lexeme ++ rest) lexeme form caution?)
    (same : rest'.head? = rest.head?) : Longest (lexeme ++ rest') lexeme form caution? where
  isLexeme := longest.isLexeme
  atFront := List.prefix_append _ _
  longest := by
    intro other form' caution?' isLexeme atFront
    by_contra longer
    obtain ⟨more, rfl⟩ := List.prefix_of_prefix_length_le (List.prefix_append _ _) atFront
      (Nat.le_of_not_le longer)
    rw [List.prefix_append_right_inj] at atFront
    cases more with
    | nil => simp at longer
    | cons b more =>
      obtain ⟨left, rfl⟩ := atFront
      cases rest with
      | nil => cases same
      | cons d rest =>
        -- The longer lexeme goes on with the character that came next before, so there was
        -- a longer one before as well.
        obtain rfl : b = d := by simpa using same
        obtain ⟨form'', caution?'', next⟩ := longest.isLexeme.exists_next isLexeme
        have bound := longest.longest _ _ _ next (by simp)
        simp only [List.length_append, List.length_singleton] at bound
        omega

theorem Form.ofWord_ne_comment (word : String) : Form.ofWord word ≠ .comment := by
  unfold ofWord
  split
  · simp
  · split
    · simp
    · split <;> simp

/-- A comment is read to the end of its line. -/
theorem Longest.exists_line {lexeme rest : List Char} {caution? : Option Caution}
    (longest : Longest (lexeme ++ rest) lexeme .comment caution?) :
    ∃ line, lexeme = '/' :: '/' :: line ∧ caution? = none ∧ (∀ d ∈ line, d ≠ '\n') ∧
      ∀ d, rest.head? = some d → d = '\n' := by
  obtain ⟨isLexeme, -, bound⟩ := longest
  generalize kind : Form.comment = form at isLexeme
  cases isLexeme with
  | word letter further => exact absurd kind.symm (Form.ofWord_ne_comment _)
  | integer | decimal | string | symbol => cases kind
  | @comment line inLine =>
    refine ⟨line, rfl, rfl, inLine, fun d next => ?_⟩
    by_contra visible
    obtain ⟨rest, rfl⟩ : ∃ rest', rest = d :: rest' := List.head?_eq_some_iff.1 next
    have longer := Lexeme.comment
      (List.forall_mem_append.2 ⟨inLine, List.forall_mem_singleton.2 visible⟩)
    have length := bound _ _ _ longer (by simp)
    simp only [List.length_cons, List.length_append] at length
    omega

/-! ## What is read -/

/-- What is read off a text, wherever it begins: the forms of its tokens without the comments, and
what there is to caution about. -/
def Reads (text : List Char) (fs : List Form) (cautions : List Caution) : Prop :=
  ∀ p, ∃ scanned, LongestMatch p text (.ok scanned) ∧ forms (codeTokens scanned) = fs ∧
    (warnings scanned).map (·.caution) = cautions

section Reads

variable {text gap gap' : List Char} {fs : List Form} {cautions : List Caution}

theorem reads_nil : Reads [] [.finish] [] := fun _ =>
  ⟨_, .finish (show ∀ c ∈ [], _ by simp), rfl, rfl⟩

/-- White space before a text shifts it. -/
theorem LongestMatch.cons {p : Position} {c : Char} {result : Except LexError (List Scanned)}
    (longestMatch : LongestMatch (p.advance c) text result) (blank : isBlank c = true) :
    LongestMatch p (c :: text) result := by
  cases longestMatch with
  | finish blanks =>
    rw [← Position.after_cons]
    exact .finish (List.forall_mem_cons.2 ⟨blank, blanks⟩)
  | fault blanks visible none =>
    rw [← Position.after_cons]
    exact .fault (List.forall_mem_cons.2 ⟨blank, blanks⟩) visible none
  | lexeme blanks longest further =>
    rw [← Position.after_cons] at further ⊢
    exact .lexeme (List.forall_mem_cons.2 ⟨blank, blanks⟩) longest further

theorem Reads.blank {c : Char} (blank : isBlank c = true) (reads : Reads text fs cautions) :
    Reads (c :: text) fs cautions := fun p => by
  obtain ⟨scanned, longestMatch, read⟩ := reads (p.advance c)
  exact ⟨scanned, longestMatch.cons blank, read⟩

theorem Reads.lexeme {lexeme : List Char} {form : Form} {caution? : Option Caution}
    (longest : Longest (lexeme ++ text) lexeme form caution?) (reads : Reads text fs cautions) :
    Reads (lexeme ++ text) (if form = .comment then fs else form :: fs)
      (caution?.toList ++ cautions) := fun p => by
  obtain ⟨scanned, longestMatch, rfl, rfl⟩ := reads (p.after lexeme)
  have whole : LongestMatch p ([] ++ (lexeme ++ text)) (.ok (.at form caution? p :: scanned)) :=
    .lexeme (show ∀ c ∈ [], _ by simp) longest longestMatch
  refine ⟨_, whole, ?_, ?_⟩
  · rw [codeTokens_cons]
    by_cases comment : form = .comment <;> simp [Scanned.at, comment]
  · cases caution? <;> simp [warnings, Scanned.at]

theorem Reads.comment {line : List Char} (inLine : ∀ d ∈ line, d ≠ '\n')
    (ends : ∀ d, text.head? = some d → d = '\n') (reads : Reads text fs cautions) :
    Reads ('/' :: '/' :: line ++ text) fs cautions := by
  have separates : Separates .comment text := by
    cases text with
    | nil => trivial
    | cons d text =>
      obtain rfl := ends d rfl
      exact ⟨by decide, fun _ => rfl⟩
  exact reads.lexeme ((Lexeme.comment inLine).longest_append separates)

/-- What a comment leaves of the text behind it. -/
abbrev behindLine (text : List Char) : List Char := text.dropWhile (· ≠ '\n')

theorem behindLine_of_ends (ends : ∀ d, text.head? = some d → d = '\n') :
    behindLine text = text := by
  cases text with
  | nil => rfl
  | cons d text =>
    obtain rfl := ends d rfl
    rfl

theorem behindLine_of_inLine {line : List Char} (inLine : ∀ d ∈ line, d ≠ '\n') :
    behindLine (line ++ text) = behindLine text :=
  List.dropWhile_append_of_pos (by simpa using inLine)

/-- A comment that is followed by other characters on its line takes them in. -/
theorem Reads.extendedComment {line : List Char} (inLine : ∀ d ∈ line, d ≠ '\n')
    (reads : Reads (behindLine text) fs cautions) :
    Reads ('/' :: '/' :: line ++ text) fs cautions := by
  have further : ∀ d ∈ text.takeWhile (· ≠ '\n'), d ≠ '\n' := fun d member => by
    simpa using List.mem_takeWhile_imp member
  have ends : ∀ d, (behindLine text).head? = some d → d = '\n' := fun d begins => by
    have stops := List.head?_dropWhile_not (· ≠ '\n') text
    rw [begins] at stops
    simpa using stops
  have whole := reads.comment (List.forall_mem_append.2 ⟨inLine, further⟩) ends
  rwa [List.cons_append, List.cons_append, List.append_assoc, List.takeWhile_append_dropWhile]
    at whole

/-- Nothing is read off filler. -/
theorem Reads.filler {filler : List Char} (isFiller : Filler filler)
    (reads : Reads text fs cautions) : Reads (filler ++ text) fs cautions := by
  induction isFiller with
  | nil => exact reads
  | blank blank further inductionHypothesis => exact inductionHypothesis.blank blank
  | @comment line rest inLine further inductionHypothesis =>
    have behind : Reads ('\n' :: (rest ++ text)) fs cautions :=
      inductionHypothesis.blank (by decide)
    simpa using Reads.comment inLine (by simp) behind

theorem Reads.widened (isGap : IsGap gap) (widened : Widened gap gap')
    (reads : Reads text fs cautions) : Reads (gap' ++ text) fs cautions := by
  induction widened with
  | nil => exact reads
  | keep c further inductionHypothesis =>
    obtain ⟨blank, isGap⟩ := List.forall_mem_cons.1 isGap
    exact (inductionHypothesis isGap).blank blank
  | pad isPadding further inductionHypothesis =>
    rw [List.append_assoc]
    exact (inductionHypothesis isGap).filler isPadding.filler

/-- A comment that takes in the first line of what has been put behind it leaves filler. -/
theorem Reads.leftByComment (isGap : IsGap gap) (widened : Widened gap gap')
    (ends : ∀ d, (gap ++ text).head? = some d → d = '\n') (reads : Reads text fs cautions) :
    Reads (behindLine (gap' ++ text)) fs cautions := by
  induction widened with
  | nil =>
    rw [behindLine_of_ends ends]
    exact reads
  | keep c further inductionHypothesis =>
    obtain rfl : c = '\n' := ends c rfl
    exact reads.widened isGap (.keep '\n' further)
  | @pad padding gap gap' isPadding further inductionHypothesis =>
    rw [List.append_assoc]
    obtain inLine | ⟨line, rest, rfl, inLine, isFiller⟩ := isPadding.filler.cut
    · -- All of it belongs to the comment, and so does the first line of what comes next.
      rw [behindLine_of_inLine inLine]
      exact inductionHypothesis isGap ends
    · have left : behindLine ('\n' :: rest ++ (gap' ++ text)) = '\n' :: rest ++ (gap' ++ text) :=
        rfl
      rw [List.append_assoc, behindLine_of_inLine inLine, left]
      exact ((reads.widened isGap further).filler isFiller).blank (by decide)

end Reads

/-- What padding has been put into begins with white space or as it did before. -/
theorem Widened.head {gap gap' : List Char} (widened : Widened gap gap') {text text' : List Char}
    (same : text'.head? = text.head?) :
    (∃ b rest, gap' ++ text' = b :: rest ∧ isBlank b = true) ∨
      (gap' ++ text').head? = (gap ++ text).head? := by
  cases widened with
  | nil => exact .inr same
  | keep c further => exact .inr rfl
  | pad isPadding further =>
    obtain ⟨b, rest, rfl, blank, -⟩ := isPadding
    exact .inl ⟨b, _, rfl, blank⟩

theorem Longest.head?_append {lexeme text : List Char} {form : Form} {caution? : Option Caution}
    (longest : Longest text lexeme form caution?) (rest rest' : List Char) :
    (lexeme ++ rest).head? = (lexeme ++ rest').head? := by
  obtain ⟨c, cs, rfl⟩ := List.exists_cons_of_ne_nil longest.isLexeme.ne_nil
  rfl

theorem Spread.head {text text' : List Char} (spread : Spread text text') :
    (∃ b rest, text' = b :: rest ∧ isBlank b = true) ∨ text'.head? = text.head? := by
  cases spread with
  | finish blank widened =>
    have begins := widened.head (show ([] : List Char).head? = ([] : List Char).head? from rfl)
    simpa using begins
  | lexeme blank widened longest further => exact widened.head (longest.head?_append _ _)

/-- The same is read off a text and off what it is spread to. -/
theorem Spread.reads {text text' : List Char} (spread : Spread text text') :
    ∃ fs cautions, Reads text fs cautions ∧ Reads text' fs cautions ∧
      ((∀ d, text.head? = some d → d = '\n') → Reads (behindLine text') fs cautions) := by
  induction spread with
  | @finish gap gap' blank widened =>
    refine ⟨[.finish], [], ?_, ?_, fun ends => ?_⟩
    · simpa using reads_nil.widened blank (.refl gap)
    · simpa using reads_nil.widened blank widened
    · simpa using reads_nil.leftByComment blank widened (by simpa using ends)
  | @lexeme gap gap' lexeme rest rest' form caution? blank widened longest further
      inductionHypothesis =>
    obtain ⟨fs, cautions, reads, reads', behind⟩ := inductionHypothesis
    have first : Reads (lexeme ++ rest') (if form = .comment then fs else form :: fs)
        (caution?.toList ++ cautions) := by
      by_cases comment : form = .comment
      · -- The comment takes in more than before, which is not read anyhow.
        subst comment
        obtain ⟨line, rfl, rfl, inLine, ends⟩ := longest.exists_line
        exact (behind ends).extendedComment inLine
      · -- Behind it comes white space, or what came before.
        obtain ⟨b, left, rfl, space⟩ | same := further.head
        · have separates : Separates form (b :: left) :=
            ⟨space, fun isComment => absurd isComment comment⟩
          exact reads'.lexeme (longest.isLexeme.longest_append separates)
        · exact reads'.lexeme (longest.congr_head same)
    refine ⟨_, _, (reads.lexeme longest).widened blank (.refl gap), first.widened blank widened,
      fun ends => ?_⟩
    refine first.leftByComment blank widened fun d begins => ends d ?_
    rw [← begins]
    cases gap with
    | nil => exact longest.head?_append rest rest'
    | cons c gap => rfl

/-! ## Tokens and trees -/

/-- A text that is spread is made of tokens of the same forms, the comments apart, and there is the
same to caution about. -/
theorem Spread.tokenize {source source' : String} (spread : Spread source.toList source'.toList) :
    ∃ scanned scanned', tokenize source = .ok scanned ∧ tokenize source' = .ok scanned' ∧
      forms (codeTokens scanned) = forms (codeTokens scanned') ∧
      (warnings scanned).map (·.caution) = (warnings scanned').map (·.caution) := by
  obtain ⟨fs, cautions, reads, reads', -⟩ := spread.reads
  obtain ⟨scanned, longestMatch, sameForms, sameCautions⟩ := reads .start
  obtain ⟨scanned', longestMatch', sameForms', sameCautions'⟩ := reads' .start
  exact ⟨scanned, scanned', tokenize_of_longestMatch longestMatch,
    tokenize_of_longestMatch longestMatch', sameForms.trans sameForms'.symm,
    sameCautions.trans sameCautions'.symm⟩

theorem map_erase_of_forms {tokens tokens' : List Token} (same : forms tokens = forms tokens') :
    tokens.map (Token.relocate Position.erase) = tokens'.map (Token.relocate Position.erase) := by
  have erased (tokens : List Token) : tokens.map (Token.relocate Position.erase) =
      (forms tokens).map fun form => ⟨form, .start⟩ := by
    simp [forms, Token.relocate]
  rw [erased, erased, same]

theorem map_erase_of_cautions {ws ws' : List Warning}
    (same : ws.map (·.caution) = ws'.map (·.caution)) :
    ws.map (Warning.relocate Position.erase) = ws'.map (Warning.relocate Position.erase) := by
  have erased (ws : List Warning) : ws.map (Warning.relocate Position.erase) =
      (ws.map (·.caution)).map fun caution => ⟨caution, .start⟩ := by
    simp [Warning.relocate]
  rw [erased, erased, same]

/-- What is parsed from a text, with all positions changed. -/
def relocateParsed {α : Type} (f : Position → Position) (move : α → α) :
    α × List Warning → α × List Warning :=
  Prod.map move (List.map (Warning.relocate f))

theorem Spread.parseText {α : Type} {move : (Position → Position) → α → α} {p : Nat → Parser α}
    (handsOn : Parser.HandsOnWhole move p) {source source' : String}
    (spread : Spread source.toList source'.toList) :
    relocateOutcome Position.erase (relocateParsed Position.erase (move Position.erase))
        (parseText p source) =
      relocateOutcome Position.erase (relocateParsed Position.erase (move Position.erase))
        (parseText p source') := by
  obtain ⟨scanned, scanned', success, success', sameForms, sameCautions⟩ := spread.tokenize
  have cautions := map_erase_of_cautions sameCautions
  have result := handsOn.result (f := Position.erase) (codeTokens_end success)
  rw [map_erase_of_forms sameForms, handsOn.result (codeTokens_end success')] at result
  rw [parseText_of_tokenize p success, parseText_of_tokenize p success']
  obtain ⟨a', a, read', read, same⟩ | ⟨halt', halt, read', read, same⟩ :=
    relocateOutcome_cases result
  · simp [read, read', Except.map, relocateOutcome, relocateParsed, same, cautions]
  · simp [read, read', Except.map, relocateOutcome, same]

/-! ## Runs -/

/-- What a text does on a machine: its exit code or its error, and the machine that is left. -/
def Machine.runText [Host] (m : Machine) (n : Nat) (source : String) :
    Except (Halt Error) Int64 × Machine :=
  match parseProgram source with
  | .ok (program, _) => m.perform (Action.run n program)
  | .error halt => (.error halt, m)

/-- A text is run on the machine that knows the native functions. -/
theorem runText_eq [Memory] (source : String) :
    runText source = (Machine.standard.runText bound source).1 := by
  unfold runText Machine.runText
  cases parseProgram source with
  | ok result => rfl
  | error halt => rfl

section

variable {α : Type} (f : Position → Position) (move : α → α) (m : Machine) (action : Action α)

theorem Machine.perform_fst_relocate :
    relocateOutcome f move (m.perform action).1 =
      match Ending.relocate f move (action m) with
      | .ok a _ => .ok a
      | .error halt _ => .error (halt.map .runtime) := by
  unfold perform
  cases action m with
  | ok a m' => rfl
  | error halt m' => cases halt <;> rfl

theorem Machine.perform_sink_relocate :
    (m.perform action).2.sink = (Ending.machine (Ending.relocate f move (action m))).sink := by
  unfold perform
  cases action m <;> rfl

end

/-- Programs that differ in positions only do the same on a machine. -/
theorem perform_run_of_erased [Memory] (n : Nat) (m : Machine) {program program' : Program}
    (same : program.relocate Position.erase = program'.relocate Position.erase) :
    relocateOutcome Position.erase id (m.perform (Action.run n program)).1 =
        relocateOutcome Position.erase id (m.perform (Action.run n program')).1 ∧
      (m.perform (Action.run n program)).2.sink = (m.perform (Action.run n program')).2.sink := by
  have follows := Action.run_follows (f := Position.erase) n program m
  rw [same, Action.run_follows (f := Position.erase) n program' m] at follows
  simp only [Machine.perform_fst_relocate, Machine.perform_sink_relocate Position.erase id, follows,
    and_self]

/-- Texts that are parsed alike do the same on a machine. -/
theorem Machine.runText_of_parsed [Memory] {source source' : String}
    (parsed : relocateOutcome Position.erase (relocateParsed Position.erase Program.bare)
        (parseProgram source) =
      relocateOutcome Position.erase (relocateParsed Position.erase Program.bare)
        (parseProgram source'))
    (n : Nat) (m : Machine) :
    relocateOutcome Position.erase id (m.runText n source).1 =
        relocateOutcome Position.erase id (m.runText n source').1 ∧
      (m.runText n source).2.sink = (m.runText n source').2.sink := by
  unfold runText
  obtain ⟨result, result', read, read', same⟩ | ⟨halt, halt', read, read', same⟩ :=
    relocateOutcome_cases parsed
  · have program : Program.bare result.1 = Program.bare result'.1 := congrArg Prod.fst same
    rw [← Program.relocate_erase, ← Program.relocate_erase] at program
    rw [read, read']
    exact perform_run_of_erased n m program
  · rw [read, read']
    exact ⟨congrArg Except.error same, rfl⟩

/-- Padding between the tokens of a text does not matter.  The tokens, the comments apart, are of
the same forms, and there is the same to caution about; the text is parsed as the same program, or
fails to be parsed for the same cause; and the program does the same on any machine: it gives the
same exit code or fails for the same cause, and writes the same. -/
theorem layout_does_not_matter [Memory] {source source' : String}
    (spread : Spread source.toList source'.toList) :
    (∃ scanned scanned', tokenize source = .ok scanned ∧ tokenize source' = .ok scanned' ∧
      forms (codeTokens scanned) = forms (codeTokens scanned') ∧
      (warnings scanned).map (·.caution) = (warnings scanned').map (·.caution)) ∧
    relocateOutcome Position.erase (relocateParsed Position.erase Program.bare)
        (parseProgram source) =
      relocateOutcome Position.erase (relocateParsed Position.erase Program.bare)
        (parseProgram source') ∧
    ∀ n (m : Machine),
      relocateOutcome Position.erase id (m.runText n source).1 =
          relocateOutcome Position.erase id (m.runText n source').1 ∧
        (m.runText n source).2.sink = (m.runText n source').2.sink := by
  have bare : Program.relocate Position.erase = Program.bare := funext Program.relocate_erase
  have parsed := spread.parseText Parser.program_relocates
  rw [bare] at parsed
  exact ⟨spread.tokenize, parsed, Machine.runText_of_parsed parsed⟩

/-- The text of an empty main function on one line, and on two with a comment between them. -/
theorem emptyMain_on_two_lines :
    Spread "int main\x7b\x7d".toList "int // a\n main\x7b\x7d".toList ∧
    (Machine.standard.runText 99 "int main\x7b\x7d").1 = .ok 0 ∧
    relocateOutcome Position.erase id (Machine.standard.runText 99 "int // a\n main\x7b\x7d").1 =
      .ok 0 := by
  have parts : "int main\x7b\x7d".toList = [] ++ (['i', 'n', 't'] ++ " main\x7b\x7d".toList) := rfl
  have parts' : "int // a\n main\x7b\x7d".toList =
      [] ++ (['i', 'n', 't'] ++ (" // a\n".toList ++ " main\x7b\x7d".toList)) := rfl
  have inLine : ∀ d ∈ [' ', 'a'], d ≠ '\n' := by simp
  have padding : IsPadding " // a\n".toList := ⟨' ', _, rfl, by decide, .comment inLine .nil⟩
  obtain ⟨scanned, read⟩ : ∃ scanned, tokenize " main\x7b\x7d" = .ok scanned := ⟨_, rfl⟩
  have rest := ((longestMatch_tokenize " main\x7b\x7d").spread scanned read).pad padding
  have int : Lexeme ['i', 'n', 't'] (.keyword (.base .int)) none := Keyword.lexeme (.base .int)
  have spread : Spread "int main\x7b\x7d".toList "int // a\n main\x7b\x7d".toList := by
    rw [parts, parts']
    exact .lexeme nofun .nil (int.longest_append ⟨by decide, nofun⟩) rest
  have once : (Machine.standard.runText 99 "int main\x7b\x7d").1 = .ok 0 := by decide +kernel
  have alike := ((layout_does_not_matter spread).2.2 99 .standard).1
  rw [once] at alike
  exact ⟨spread, once, alike.symm⟩

end Rightflow
