import Mathlib.Data.List.TakeWhile
import Rightflow.Proofs.LongestReading

/-!
# The lexicon

`Lexeme` says which characters are a token, of which form and with which caution, without a word
about how they are read.  `Reading.front` takes the longest lexeme that stands at the front of a
text, and where it finds a fault there is none (`front_readsFront`).
-/

namespace Rightflow

/-! ## Lexemes -/

/-- The characters between the quotes of a string, and what they stand for.  No quote and no
backslash stands there for itself, and no line ends there. -/
inductive Quoted : List Char → List Char → Prop where
  | nil : Quoted [] []
  | plain {c : Char} {body content : List Char} (notQuote : c ≠ '"') (notBackslash : c ≠ '\\')
      (notNewline : c ≠ '\n') (further : Quoted body content) : Quoted (c :: body) (c :: content)
  | escaped {c : Char} {body content : List Char} (notNewline : c ≠ '\n')
      (further : Quoted body content) : Quoted ('\\' :: c :: body) (unescape c :: content)

/-- The token of a word: only the beginning of a long one counts. -/
def keptWord (word : List Char) : String := String.ofList (word.take nameLimit)

/-- The number that digits spell. -/
def spelledNat (digits : List Char) : Nat := Nat.ofDigitChars 10 digits 0

/-- The characters of a token, its form, and what to caution about. -/
inductive Lexeme : List Char → Form → Option Caution → Prop where
  | word {c : Char} {cs : List Char} (letter : isLetter c = true)
      (further : ∀ d ∈ cs, isNameChar d = true) :
      Lexeme (c :: cs) (.ofWord (keptWord (c :: cs)))
        (if nameLimit < (c :: cs).length then some (.shortened (keptWord (c :: cs))) else none)
  | integer {c : Char} {cs : List Char} (digits : ∀ d ∈ c :: cs, d.isDigit = true) :
      Lexeme (c :: cs)
        (.literal (.int (Int64.ofNat (min (spelledNat (c :: cs)) Numeral.limit))))
        (if Numeral.limit < spelledNat (c :: cs) then some .clamped else none)
  | decimal {c : Char} {cs places : List Char} (digits : ∀ d ∈ c :: cs, d.isDigit = true)
      (further : ∀ d ∈ places, d.isDigit = true) :
      Lexeme (c :: cs ++ '.' :: places)
        (.literal (.flt (Numeral.ofDigits (c :: cs) places).toFloat))
        (Numeral.ofDigits (c :: cs) places).caution?
  | string {body content : List Char} (quoted : Quoted body content) :
      Lexeme ('"' :: (body ++ ['"'])) (.literal (.string (String.ofList content))) none
  | symbol (s : Symbol) : Lexeme s.spelling (.symbol s) none
  | comment {cs : List Char} (line : ∀ d ∈ cs, d ≠ '\n') : Lexeme ('/' :: '/' :: cs) .comment none

/-- The lexeme stands at the front of the text, and no longer one does. -/
structure Longest (text lexeme : List Char) (form : Form) (caution? : Option Caution) : Prop where
  isLexeme : Lexeme lexeme form caution?
  atFront : lexeme <+: text
  longest : ∀ other form' caution', Lexeme other form' caution' → other <+: text →
    other.length ≤ lexeme.length

/-! ## What a lexeme is by its first character -/

theorem Symbol.spelling_eq_cons (s : Symbol) : ∃ c cs, s.spelling = c :: cs ∧
    isLetter c = false ∧ c.isDigit = false ∧ c ≠ '"' := by
  cases s <;> exact ⟨_, _, rfl, by decide, by decide, by decide⟩

theorem isDigit_iff {c : Char} : c.isDigit = true ↔ 48 ≤ c.toNat ∧ c.toNat ≤ 57 := by
  simp [Char.isDigit, UInt32.le_iff_toNat_le, ← Char.toNat_val]

theorem isAlpha_iff {c : Char} : c.isAlpha = true ↔
    (65 ≤ c.toNat ∧ c.toNat ≤ 90) ∨ (97 ≤ c.toNat ∧ c.toNat ≤ 122) := by
  have ranges : c.isAlpha = (decide (c.val ≥ 65 ∧ c.val ≤ 90) || (c.val ≥ 97 && c.val ≤ 122)) := rfl
  simp [ranges, UInt32.le_iff_toNat_le, ← Char.toNat_val]

theorem isLetter_eq_false_of_isDigit {c : Char} (digit : c.isDigit = true) : isLetter c = false := by
  rw [isDigit_iff] at digit
  rw [isLetter, Bool.eq_false_iff, Ne, isAlpha_iff]
  omega

theorem isNameChar_of_isDigit {c : Char} (digit : c.isDigit = true) : isNameChar c = true := by
  simp [isNameChar, Char.isAlphanum, digit]

theorem isNameChar_of_isLetter {c : Char} (letter : isLetter c = true) : isNameChar c = true := by
  rw [isLetter] at letter
  simp [isNameChar, Char.isAlphanum, letter]

/-- What stands behind the first character of a lexeme, according to that character. -/
def Tail (c : Char) (cs : List Char) : Prop :=
  if isLetter c then ∀ d ∈ cs, isNameChar d = true
  else if c.isDigit then
    (∀ d ∈ cs, d.isDigit = true) ∨ ∃ ds places, cs = ds ++ '.' :: places ∧
      (∀ d ∈ ds, d.isDigit = true) ∧ ∀ d ∈ places, d.isDigit = true
  else if c = '"' then ∃ body content, cs = body ++ ['"'] ∧ Quoted body content
  else (∃ s : Symbol, s.spelling = c :: cs) ∨ c = '/' ∧ ∃ ds, cs = '/' :: ds ∧ ∀ d ∈ ds, d ≠ '\n'

theorem Lexeme.exists_eq_cons {text : List Char} {form : Form} {caution? : Option Caution}
    (lexeme : Lexeme text form caution?) : ∃ c cs, text = c :: cs ∧ Tail c cs := by
  cases lexeme with
  | word letter further => exact ⟨_, _, rfl, by simpa [Tail, letter] using further⟩
  | integer digits =>
    obtain ⟨digit, digits⟩ := List.forall_mem_cons.1 digits
    refine ⟨_, _, rfl, ?_⟩
    simp only [Tail, isLetter_eq_false_of_isDigit digit, digit, if_true, Bool.false_eq_true,
      if_false]
    exact .inl digits
  | @decimal c cs places digits further =>
    obtain ⟨digit, digits⟩ := List.forall_mem_cons.1 digits
    refine ⟨_, _, rfl, ?_⟩
    simp only [Tail, isLetter_eq_false_of_isDigit digit, digit, if_true, Bool.false_eq_true,
      if_false]
    exact .inr ⟨cs, places, rfl, digits, further⟩
  | @string body content quoted => exact ⟨_, _, rfl, body, content, rfl, quoted⟩
  | symbol s =>
    obtain ⟨c, cs, spelled, notLetter, notDigit, notQuote⟩ := s.spelling_eq_cons
    refine ⟨c, cs, spelled, ?_⟩
    simp only [Tail, notLetter, notDigit, notQuote]
    exact .inl ⟨s, spelled⟩
  | @comment cs line => exact ⟨_, _, rfl, .inr ⟨rfl, cs, rfl, line⟩⟩

theorem Lexeme.ne_nil {text : List Char} {form : Form} {caution? : Option Caution}
    (lexeme : Lexeme text form caution?) : text ≠ [] := by
  obtain ⟨c, cs, rfl, -⟩ := lexeme.exists_eq_cons
  simp

/-- A lexeme at the front of a text begins as the text does. -/
theorem Lexeme.exists_tail {c : Char} {rest other : List Char} {form : Form}
    {caution? : Option Caution} (lexeme : Lexeme other form caution?)
    (atFront : other <+: c :: rest) : ∃ cs, other = c :: cs ∧ cs <+: rest ∧ Tail c cs := by
  obtain ⟨d, cs, rfl, tail⟩ := lexeme.exists_eq_cons
  obtain ⟨rfl, front⟩ := List.cons_prefix_cons.1 atFront
  exact ⟨cs, rfl, front, tail⟩

/-! ## The longest lexeme -/

/-- What satisfies a predicate at the front of a list is no longer than all that does. -/
theorem length_le_takeWhile {p : Char → Bool} {xs ys : List Char} (all : ∀ x ∈ xs, p x = true)
    (front : xs <+: ys) : xs.length ≤ (ys.takeWhile p).length := by
  obtain ⟨zs, rfl⟩ := front
  rw [List.takeWhile_append_of_pos all, List.length_append]
  omega

section Front

variable {c : Char} {rest : List Char}

theorem longest_word (letter : isLetter c = true) :
    Longest (c :: rest) (c :: rest.takeWhile isNameChar)
      (.ofWord (keptWord (c :: rest.takeWhile isNameChar)))
      (if nameLimit < (c :: rest.takeWhile isNameChar).length then
        some (.shortened (keptWord (c :: rest.takeWhile isNameChar))) else none) where
  isLexeme := .word letter fun d mem => List.mem_takeWhile_imp mem
  atFront := List.cons_prefix_cons.2 ⟨rfl, List.takeWhile_prefix _⟩
  longest other form' caution' lexeme atFront := by
    obtain ⟨cs, rfl, front, tail⟩ := lexeme.exists_tail atFront
    have named : ∀ d ∈ cs, isNameChar d = true := by simpa [Tail, letter] using tail
    simpa using length_le_takeWhile named front

theorem splitAt_point {ds : List Char} (after : List Char) (digits : ∀ d ∈ ds, d.isDigit = true) :
    (ds ++ '.' :: after).takeWhile Char.isDigit = ds ∧
      (ds ++ '.' :: after).dropWhile Char.isDigit = '.' :: after := by
  rw [List.takeWhile_append_of_pos digits, List.dropWhile_append_of_pos digits]
  simp

theorem tail_of_digit {cs : List Char} (digit : c.isDigit = true) (tail : Tail c cs) :
    (∀ d ∈ cs, d.isDigit = true) ∨ ∃ ds places, cs = ds ++ '.' :: places ∧
      (∀ d ∈ ds, d.isDigit = true) ∧ ∀ d ∈ places, d.isDigit = true := by
  simpa [Tail, isLetter_eq_false_of_isDigit digit, digit] using tail

theorem longest_integer (digit : c.isDigit = true)
    (noPoint : ∀ after, rest.dropWhile Char.isDigit ≠ '.' :: after) :
    Longest (c :: rest) (c :: rest.takeWhile Char.isDigit)
      (.literal (.int (Int64.ofNat
        (min (spelledNat (c :: rest.takeWhile Char.isDigit)) Numeral.limit))))
      (if Numeral.limit < spelledNat (c :: rest.takeWhile Char.isDigit) then some .clamped
        else none) where
  isLexeme := .integer (List.forall_mem_cons.2 ⟨digit, fun d mem => List.mem_takeWhile_imp mem⟩)
  atFront := List.cons_prefix_cons.2 ⟨rfl, List.takeWhile_prefix _⟩
  longest other form' caution' lexeme atFront := by
    obtain ⟨cs, rfl, front, tail⟩ := lexeme.exists_tail atFront
    obtain digits | ⟨ds, places, rfl, digits, -⟩ := tail_of_digit digit tail
    · simpa using length_le_takeWhile digits front
    · obtain ⟨after, rfl⟩ := front
      rw [List.append_assoc] at noPoint
      exact absurd (splitAt_point _ digits).2 (noPoint _)

theorem longest_decimal {after : List Char} (digit : c.isDigit = true)
    (point : rest.dropWhile Char.isDigit = '.' :: after) :
    Longest (c :: rest)
      (c :: rest.takeWhile Char.isDigit ++ '.' :: after.takeWhile Char.isDigit)
      (.literal (.flt (Numeral.ofDigits (c :: rest.takeWhile Char.isDigit)
        (after.takeWhile Char.isDigit)).toFloat))
      (Numeral.ofDigits (c :: rest.takeWhile Char.isDigit)
        (after.takeWhile Char.isDigit)).caution? where
  isLexeme :=
    .decimal (List.forall_mem_cons.2 ⟨digit, fun d mem => List.mem_takeWhile_imp mem⟩)
      fun d mem => List.mem_takeWhile_imp mem
  atFront := by
    have whole : rest.takeWhile Char.isDigit ++ '.' :: after = rest := by
      rw [← point]
      exact List.takeWhile_append_dropWhile
    refine ⟨after.dropWhile Char.isDigit, ?_⟩
    rw [List.append_assoc, List.cons_append, List.cons_append, List.takeWhile_append_dropWhile,
      whole]
  longest other form' caution' lexeme atFront := by
    obtain ⟨cs, rfl, front, tail⟩ := lexeme.exists_tail atFront
    obtain digits | ⟨ds, places, rfl, digits, further⟩ := tail_of_digit digit tail
    · have shorter := length_le_takeWhile digits front
      simp
      omega
    · -- Both have the same digits before the point, and behind it no more than all can be taken.
      obtain ⟨left, rfl⟩ := front
      rw [List.append_assoc, List.cons_append] at point ⊢
      obtain ⟨taken, dropped⟩ := splitAt_point (places ++ left) digits
      obtain rfl : places ++ left = after := by simpa [dropped] using point
      have shorter := length_le_takeWhile further (List.prefix_append places left)
      simp [taken]
      omega

/-! ### Strings -/

theorem stringContent_plain (notQuote : c ≠ '"') (notBackslash : c ≠ '\\') (notNewline : c ≠ '\n') :
    stringContent (c :: rest) =
      ((stringContent rest).1.map (c :: ·), (stringContent rest).2 + 1) := by
  rw [stringContent] <;> simp_all

theorem stringContent_escaped (notNewline : c ≠ '\n') :
    stringContent ('\\' :: c :: rest) =
      ((stringContent rest).1.map (unescape c :: ·), (stringContent rest).2 + 2) := by
  rw [stringContent]
  exact notNewline

/-- A backslash that neither ends the text nor escapes a character is none. -/
theorem ne_backslash (notLast : c = '\\' → rest = [] → False)
    (notEscape : ∀ d more, c = '\\' → rest = d :: more → False) : c ≠ '\\' := by
  intro same
  cases rest with
  | nil => exact notLast same rfl
  | cons d more => exact notEscape d more same rfl

theorem stringContent_append {body content : List Char} (quoted : Quoted body content)
    (rest : List Char) :
    stringContent (body ++ '"' :: rest) = (some content, body.length + 1) := by
  induction quoted with
  | nil => rfl
  | plain notQuote notBackslash notNewline further ih =>
    rw [List.cons_append, stringContent_plain notQuote notBackslash notNewline, ih]
    rfl
  | escaped notNewline further ih =>
    rw [List.cons_append, List.cons_append, stringContent_escaped notNewline, ih]
    rfl

theorem exists_quoted_of_stringContent {text content : List Char} {n : Nat}
    (found : stringContent text = (some content, n)) :
    ∃ body rest, text = body ++ '"' :: rest ∧ Quoted body content ∧ n = body.length + 1 := by
  induction text using stringContent.induct generalizing content n with
  | case1 | case3 | case4 | case5 => cases found
  | case2 rest =>
    obtain ⟨rfl, rfl⟩ : content = [] ∧ n = 1 := by simpa [stringContent, eq_comm] using found
    exact ⟨[], rest, rfl, .nil, rfl⟩
  | case6 c rest notNewline content? k run ih =>
    rw [stringContent_escaped notNewline, run] at found
    simp only [Prod.mk.injEq, Option.map_eq_some_iff] at found
    obtain ⟨⟨inner, rfl, rfl⟩, rfl⟩ := found
    obtain ⟨body, left, rfl, quoted, rfl⟩ := ih run
    exact ⟨'\\' :: c :: body, left, rfl, .escaped notNewline quoted, rfl⟩
  | case7 c rest notQuote notNewline notLast notBroken notEscape content? k run ih =>
    have notBackslash := ne_backslash notLast notEscape
    rw [stringContent_plain notQuote notBackslash notNewline, run] at found
    simp only [Prod.mk.injEq, Option.map_eq_some_iff] at found
    obtain ⟨⟨inner, rfl, rfl⟩, rfl⟩ := found
    obtain ⟨body, left, rfl, quoted, rfl⟩ := ih run
    exact ⟨c :: body, left, rfl, .plain notQuote notBackslash notNewline quoted, rfl⟩

/-- A string at the front of a text is the only lexeme there. -/
theorem longest_string {body content : List Char} (quoted : Quoted body content)
    (after : List Char) :
    Longest ('"' :: (body ++ '"' :: after)) ('"' :: (body ++ ['"']))
      (.literal (.string (String.ofList content))) none where
  isLexeme := .string quoted
  atFront := ⟨after, by simp⟩
  longest other form' caution' lexeme atFront := by
    obtain ⟨cs, rfl, front, tail⟩ := lexeme.exists_tail atFront
    obtain ⟨body', content', rfl, quoted'⟩ := tail
    obtain ⟨left, split⟩ := front
    have first := stringContent_append quoted after
    rw [← split, List.append_assoc, List.singleton_append, stringContent_append quoted'] at first
    simp only [Prod.mk.injEq] at first
    simp
    omega

/-! ### Symbols and comments -/

theorem tail_of_other {cs : List Char} (notLetter : isLetter c = false)
    (notDigit : c.isDigit = false) (notQuote : c ≠ '"') (tail : Tail c cs) :
    (∃ s : Symbol, s.spelling = c :: cs) ∨
      c = '/' ∧ ∃ ds, cs = '/' :: ds ∧ ∀ d ∈ ds, d ≠ '\n' := by
  simpa [Tail, notLetter, notDigit, notQuote] using tail

theorem Symbol.length_le_of_longestAt? {text : List Char} {s t : Symbol}
    (found : longestAt? text = some s) (atFront : t.spelling <+: text) :
    t.spelling.length ≤ s.spelling.length := by
  obtain ⟨-, before, after, split, earlier⟩ := List.find?_eq_some_iff_append.1 found
  have mem := mem_byLength t
  have sorted := byLength_sorted
  rw [split] at mem sorted
  obtain mem | rfl | mem : t ∈ before ∨ t = s ∨ t ∈ after := by simpa using mem
  · -- What is tried before the one that is found does not stand at the front.
    have missed := earlier t mem
    simp [List.isPrefixOf_iff_prefix.2 atFront] at missed
  · exact Nat.le_refl _
  · exact (List.pairwise_cons.1 (List.pairwise_append.1 sorted).2.1).1 t mem

theorem longest_comment :
    Longest ('/' :: '/' :: rest) ('/' :: '/' :: rest.takeWhile (· ≠ '\n')) .comment none where
  isLexeme := .comment fun d mem => by simpa using List.mem_takeWhile_imp mem
  atFront := by simp [List.takeWhile_prefix]
  longest other form' caution' lexeme atFront := by
    obtain ⟨cs, rfl, front, tail⟩ := lexeme.exists_tail atFront
    obtain ⟨t, spelled⟩ | ⟨-, ds, rfl, line⟩ := tail_of_other rfl rfl (by decide) tail
    · -- The only symbol that begins with a slash is shorter than a comment.
      have single : t = .divide := by
        cases t <;> simp_all [Symbol.spelling]
      rw [← spelled, single]
      simp [Symbol.spelling]
    · have noNewline : ∀ d ∈ ds, decide (d ≠ '\n') = true := by simpa using line
      simpa using length_le_takeWhile noNewline (List.cons_prefix_cons.1 front).2

theorem longest_symbol {s : Symbol} (notLetter : isLetter c = false) (notDigit : c.isDigit = false)
    (notQuote : c ≠ '"') (notComment : ¬ ['/', '/'] <+: c :: rest)
    (found : Symbol.longestAt? (c :: rest) = some s) :
    Longest (c :: rest) s.spelling (.symbol s) none where
  isLexeme := .symbol s
  atFront := List.isPrefixOf_iff_prefix.1 (by simpa using List.find?_some found)
  longest other form' caution' lexeme atFront := by
    obtain ⟨cs, rfl, front, tail⟩ := lexeme.exists_tail atFront
    obtain ⟨t, spelled⟩ | ⟨rfl, ds, rfl, -⟩ := tail_of_other notLetter notDigit notQuote tail
    · rw [← spelled] at atFront ⊢
      exact Symbol.length_le_of_longestAt? found atFront
    · exact absurd ((by simp : ['/', '/'] <+: '/' :: '/' :: ds).trans atFront) notComment

/-! ### The reading of the front -/

theorem le_ofDigitChars (digits : List Char) (m : Nat) : m ≤ Nat.ofDigitChars 10 digits m := by
  induction digits generalizing m with
  | nil => exact Nat.le_refl m
  | cons c digits ih =>
    have further := ih (10 * m + (c.toNat - '0'.toNat))
    rw [Nat.ofDigitChars_cons]
    omega

/-- Digits are taken as long as the number is not too large, and none behind that. -/
theorem foldl_pushWhole (digits : List Char) (n : Numeral) (free : n.clamped = false)
    (fits : n.magnitude ≤ Numeral.limit) :
    digits.foldl Numeral.pushWhole n =
      ⟨min (Nat.ofDigitChars 10 digits n.magnitude) Numeral.limit, n.places,
        Numeral.limit < Nat.ofDigitChars 10 digits n.magnitude⟩ := by
  have clamps (digits : List Char) {n : Numeral} (clamped : n.clamped = true) :
      digits.foldl Numeral.pushWhole n = n := by
    induction digits with
    | nil => rfl
    | cons c digits ih => rw [List.foldl_cons, Numeral.pushWhole, if_pos clamped, ih]
  induction digits generalizing n with
  | nil =>
    obtain ⟨m, k, clamped⟩ := n
    simp_all
  | cons c digits ih =>
    have same : n.magnitude * 10 + Numeral.digit c = 10 * n.magnitude + (c.toNat - '0'.toNat) := by
      rw [Numeral.digit, Nat.mul_comm]
    rw [List.foldl_cons, Nat.ofDigitChars_cons, Numeral.pushWhole, if_neg (by simp [free]), same]
    split
    next small => exact ih _ free small
    next large =>
      -- Further digits make the number no smaller, so it stays beyond the limit.
      have grows := le_ofDigitChars digits (10 * n.magnitude + (c.toNat - '0'.toNat))
      rw [clamps digits rfl]
      congr
      · omega
      · exact (decide_eq_true (by omega)).symm

theorem ofDigits_whole (digits : List Char) :
    Numeral.ofDigits digits [] =
      ⟨min (spelledNat digits) Numeral.limit, 0, Numeral.limit < spelledNat digits⟩ :=
  foldl_pushWhole digits {} rfl (Nat.zero_le _)

/-- Why no lexeme begins with a character. -/
def LexCause.missing (c : Char) : LexCause :=
  if c = '"' then .unterminatedString else .unexpectedCharacter c

/-- Reading at the front of a text is right if it takes the longest lexeme or there is none. -/
def ReadsFront (c : Char) (rest : List Char) (reading : Reading × Nat) : Prop :=
  (∃ lexeme form caution?, reading = (.token form caution?, lexeme.length) ∧
    Longest (c :: rest) lexeme form caution?) ∨
  (∃ n, reading = (.fault (.missing c), n) ∧
    ∀ lexeme form caution?, Lexeme lexeme form caution? → ¬ lexeme <+: c :: rest)

theorem number_readsFront (digit : c.isDigit = true) :
    ReadsFront c rest (Reading.number (c :: rest)) := by
  left
  rw [Reading.number, List.takeWhile_cons_of_pos digit, List.dropWhile_cons_of_pos digit]
  split
  next after point =>
    refine ⟨_, _, _, ?_, longest_decimal digit point⟩
    simp
    omega
  next noPoint =>
    refine ⟨_, _, _, ?_, longest_integer digit fun after point => noPoint after point⟩
    simp [ofDigits_whole, Numeral.toInt64, Numeral.caution?]

theorem string_readsFront : ReadsFront '"' rest (Reading.string rest) := by
  unfold Reading.string
  split
  next content n found =>
    left
    obtain ⟨body, after, rfl, quoted, rfl⟩ := exists_quoted_of_stringContent found
    exact ⟨_, _, _, by simp, longest_string quoted after⟩
  next n missed =>
    right
    refine ⟨_, rfl, ?_⟩
    intro lexeme form caution? isLexeme atFront
    obtain ⟨cs, rfl, front, body, content, rfl, quoted⟩ := isLexeme.exists_tail atFront
    obtain ⟨after, rfl⟩ := front
    rw [List.append_assoc, List.singleton_append, stringContent_append quoted] at missed
    cases missed

theorem symbol_readsFront (notLetter : isLetter c = false) (notDigit : c.isDigit = false)
    (notQuote : c ≠ '"') : ReadsFront c rest (Reading.symbol c rest) := by
  unfold Reading.symbol
  split
  next comment =>
    left
    obtain ⟨after, split⟩ := List.isPrefixOf_iff_prefix.1 comment
    obtain ⟨rfl, rfl⟩ : '/' = c ∧ '/' :: after = rest := by simpa using split
    exact ⟨_, _, _, by simp [commentLength], longest_comment⟩
  next notComment =>
    have notComment : ¬ ['/', '/'] <+: c :: rest := by
      simpa [List.isPrefixOf_iff_prefix] using notComment
    split
    next s found =>
      have longest := longest_symbol notLetter notDigit notQuote notComment found
      exact .inl ⟨_, _, _, rfl, longest⟩
    next missed =>
      right
      refine ⟨_, by rw [LexCause.missing, if_neg notQuote], ?_⟩
      intro lexeme form caution? isLexeme atFront
      obtain ⟨cs, rfl, front, tail⟩ := isLexeme.exists_tail atFront
      obtain ⟨t, spelled⟩ | ⟨rfl, ds, rfl, -⟩ := tail_of_other notLetter notDigit notQuote tail
      · have none := List.find?_eq_none.1 missed t (Symbol.mem_byLength t)
        rw [spelled] at none
        exact none (List.isPrefixOf_iff_prefix.2 atFront)
      · exact notComment ((by simp : ['/', '/'] <+: '/' :: '/' :: ds).trans atFront)

/-- Reading takes the longest lexeme at the front of a text. -/
theorem front_readsFront (c : Char) (rest : List Char) :
    ReadsFront c rest (Reading.front c rest) := by
  unfold Reading.front
  split
  next letter =>
    left
    rw [List.takeWhile_cons_of_pos (isNameChar_of_isLetter letter)]
    exact ⟨_, _, _, rfl, longest_word letter⟩
  next notLetter =>
    split
    next digit => exact number_readsFront digit
    next notDigit =>
      split
      next quote =>
        subst quote
        exact string_readsFront
      next notQuote =>
        exact symbol_readsFront (by simpa using notLetter) (by simpa using notDigit) notQuote

end Front

/-! ## Lexemes followed by white space -/

/-- The text ends, or it goes on with white space; behind a comment that has to be the next line. -/
def Separates (form : Form) : List Char → Prop
  | [] => True
  | b :: _ => isBlank b = true ∧ (form = .comment → b = '\n')

/-- No name goes on with white space. -/
theorem isBlank_eq_false_of_isNameChar {c : Char} (named : isNameChar c = true) :
    isBlank c = false := by
  have shape : c.isAlpha = true ∨ c.isDigit = true ∨ c.toNat = 95 := by
    simp only [isNameChar, Char.isAlphanum, Bool.or_eq_true, decide_eq_true_eq] at named
    obtain (alpha | digit) | rfl := named
    · exact .inl alpha
    · exact .inr (.inl digit)
    · exact .inr (.inr rfl)
  rw [isAlpha_iff, isDigit_iff] at shape
  simp only [isBlank, blankRanges, List.any_cons, List.any_nil, Bool.or_false, Bool.or_eq_false_iff,
    Bool.and_eq_false_iff, decide_eq_false_iff_not]
  omega

/-- White space ends what consists of other characters. -/
theorem Separates.span {form : Form} {rest xs : List Char} {p : Char → Bool}
    (separates : Separates form rest) (others : ∀ b, p b = true → isBlank b = false)
    (all : ∀ x ∈ xs, p x = true) :
    (xs ++ rest).takeWhile p = xs ∧ (xs ++ rest).dropWhile p = rest := by
  rw [List.takeWhile_append_of_pos all, List.dropWhile_append_of_pos all]
  cases rest with
  | nil => simp
  | cons b rest =>
    have ends : p b = false := by
      cases holds : p b with
      | false => rfl
      | true => exact absurd separates.1 (by simp [others b holds])
    simp [ends]

theorem isBlank_eq_false_of_isDigit (c : Char) (digit : c.isDigit = true) : isBlank c = false :=
  isBlank_eq_false_of_isNameChar (isNameChar_of_isDigit digit)

theorem Symbol.isBlank_eq_false (s : Symbol) : ∀ c ∈ s.spelling, isBlank c = false := by
  have dark : s.spelling.all (fun c => !isBlank c) = true := by
    cases s <;> decide
  simpa using dark

theorem Symbol.spelling_injective {s t : Symbol} (same : s.spelling = t.spelling) : s = t := by
  cases s <;> cases t <;> first | rfl | cases same

/-- A symbol is read to its end where white space follows. -/
theorem Symbol.longestAt?_append {s : Symbol} {rest : List Char}
    (separates : Separates (.symbol s) rest) : longestAt? (s.spelling ++ rest) = some s := by
  cases found : longestAt? (s.spelling ++ rest) with
  | none =>
    have missed := List.find?_eq_none.1 found s (mem_byLength s)
    simp at missed
  | some t =>
    have atFront : t.spelling <+: s.spelling ++ rest :=
      List.isPrefixOf_iff_prefix.1 (by simpa using List.find?_some found)
    have longer := Symbol.length_le_of_longestAt? found (List.prefix_append _ _)
    obtain ⟨more, split⟩ := List.prefix_of_prefix_length_le (List.prefix_append _ _) atFront longer
    rw [← split, List.prefix_append_right_inj] at atFront
    cases more with
    | nil =>
      rw [List.append_nil] at split
      rw [Symbol.spelling_injective split]
    | cons b more =>
      obtain ⟨left, rfl⟩ := atFront
      have notBlank := t.isBlank_eq_false b (by simp [← split])
      exact absurd separates.1 (by simp [notBlank])

/-- A symbol followed by white space does not begin a comment. -/
theorem Symbol.not_comment_append {s : Symbol} {rest : List Char}
    (separates : Separates (.symbol s) rest) : ¬ ['/', '/'] <+: s.spelling ++ rest := by
  cases s with
  | divide =>
    rintro ⟨left, split⟩
    obtain rfl : '/' :: left = rest := by simpa [spelling] using split
    exact absurd separates.1 (by decide)
  | _ => simp [spelling]

/-- A lexeme followed by white space is read as what it is. -/
theorem Lexeme.front_append {text : List Char} {form : Form} {caution? : Option Caution}
    (lexeme : Lexeme text form caution?) {rest : List Char} (separates : Separates form rest) :
    ∃ c cs, text = c :: cs ∧
      Reading.front c (cs ++ rest) = (.token form caution?, text.length) := by
  cases lexeme with
  | @word c cs letter further =>
    have named : ∀ d ∈ c :: cs, isNameChar d = true :=
      List.forall_mem_cons.2 ⟨isNameChar_of_isLetter letter, further⟩
    have whole := (separates.span (fun _ => isBlank_eq_false_of_isNameChar) named).1
    refine ⟨c, cs, rfl, ?_⟩
    rw [Reading.front, if_pos letter, ← List.cons_append, whole]
    rfl
  | @integer c cs digits =>
    obtain ⟨taken, dropped⟩ := separates.span isBlank_eq_false_of_isDigit digits
    have digit := digits c (by simp)
    refine ⟨c, cs, rfl, ?_⟩
    rw [Reading.front, if_neg (by simp [isLetter_eq_false_of_isDigit digit]), if_pos digit,
      ← List.cons_append, Reading.number, taken, dropped]
    split
    next after => exact absurd separates.1 (by decide)
    next => simp [ofDigits_whole, Numeral.toInt64, Numeral.caution?]
  | @decimal c cs places digits further =>
    obtain ⟨taken, dropped⟩ := splitAt_point (places ++ rest) digits
    obtain ⟨taken', -⟩ := separates.span isBlank_eq_false_of_isDigit further
    have digit := digits c (by simp)
    refine ⟨c, cs ++ '.' :: places, rfl, ?_⟩
    rw [Reading.front, if_neg (by simp [isLetter_eq_false_of_isDigit digit]), if_pos digit,
      List.append_assoc, List.cons_append, ← List.cons_append, Reading.number, taken, dropped]
    simp [taken']
    omega
  | @string body content quoted =>
    refine ⟨_, _, rfl, ?_⟩
    rw [Reading.front, if_neg (by decide), if_neg (by decide), if_pos rfl, List.append_assoc,
      List.singleton_append, Reading.string, stringContent_append quoted]
    simp
  | symbol s =>
    obtain ⟨c, cs, spelled, notLetter, notDigit, notQuote⟩ := s.spelling_eq_cons
    have found := Symbol.longestAt?_append separates
    have notComment := Symbol.not_comment_append separates
    rw [spelled] at found notComment ⊢
    refine ⟨c, cs, rfl, ?_⟩
    rw [Reading.front, if_neg (by simp [notLetter]), if_neg (by simp [notDigit]), if_neg notQuote,
      Reading.symbol, if_neg (by simpa [List.isPrefixOf_iff_prefix] using notComment),
      ← List.cons_append, found]
    simp [spelled]
  | @comment cs line =>
    have ends : rest.takeWhile (· ≠ '\n') = [] := by
      cases rest with
      | nil => rfl
      | cons b rest => simp [separates.2 rfl]
    have inLine : ∀ d ∈ '/' :: '/' :: cs, decide (d ≠ '\n') = true := by simpa using line
    refine ⟨_, _, rfl, ?_⟩
    rw [Reading.front, if_neg (by decide), if_neg (by decide), if_neg (by decide), Reading.symbol,
      if_pos (by simp), commentLength, ← List.cons_append, List.takeWhile_append_of_pos inLine, ends,
      List.append_nil]

/-- A lexeme has one form and one caution. -/
theorem Lexeme.unique {text : List Char} {form form' : Form} {caution? caution?' : Option Caution}
    (first : Lexeme text form caution?) (second : Lexeme text form' caution?') :
    form = form' ∧ caution? = caution?' := by
  obtain ⟨c, cs, rfl, read⟩ := first.front_append (show Separates form [] from trivial)
  obtain ⟨_, _, ⟨⟩, read'⟩ := second.front_append (show Separates form' [] from trivial)
  rw [read] at read'
  simpa using read'

/-- The longest lexeme is what is read. -/
theorem Longest.front {c : Char} {rest lexeme : List Char} {form : Form} {caution? : Option Caution}
    (longest : Longest (c :: rest) lexeme form caution?) :
    Reading.front c rest = (.token form caution?, lexeme.length) := by
  obtain ⟨other, form', caution?', read, longest'⟩ | ⟨n, read, none⟩ := front_readsFront c rest
  · -- Two longest lexemes at one front are as long as each other, and so the same.
    have length := Nat.le_antisymm
      (longest.longest _ _ _ longest'.isLexeme longest'.atFront)
      (longest'.longest _ _ _ longest.isLexeme longest.atFront)
    obtain rfl := (List.prefix_of_prefix_length_le longest'.atFront longest.atFront
      (Nat.le_of_eq length)).eq_of_length length
    obtain ⟨rfl, rfl⟩ := longest.isLexeme.unique longest'.isLexeme
    exact read
  · exact absurd longest.atFront (none _ _ _ longest.isLexeme)

end Rightflow
