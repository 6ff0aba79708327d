import Rightflow.Proofs.Parsing
import Rightflow.Proofs.Tokenizing

/-!
# Forms as text

A text of forms has their spellings one after the other, with white space between each one and the
next.  Reading such a text gives the forms back, with nothing to caution about
(`tokenize_reads_back`); single spaces are enough (`tokenize_spaced`).
-/

namespace Rightflow

/-! ## Spellings -/

/-- A character as it is written between the quotes of a string. -/
def escape : Char → List Char
  | '"' => ['\\', '"']
  | '\\' => ['\\', '\\']
  | '\n' => ['\\', 'n']
  | c => [c]

/-- A literal as it is written: an integer that is not negative by its digits, a string between
quotes. -/
def Literal.spelling : Literal → List Char
  | .int n => Nat.toDigits 10 n.toNatClampNeg
  | .flt x => (Positional.text x).toList
  | .string s => '"' :: (s.toList.flatMap escape ++ ['"'])
  | .bool b => (boolText b).toList

/-- A token as it is written. -/
def Form.spelling : Form → List Char
  | .symbol s => s.spelling
  | .keyword k => k.text.toList
  | .name x => x.toList
  | .literal l => l.spelling
  | .comment | .finish => []

/-- A text of forms: their spellings, with white space between each one and the next. -/
inductive Written : List Form → List Char → Prop where
  | nothing : Written [] []
  | single (f : Form) : Written [f] f.spelling
  | further (f : Form) {g : Form} {fs : List Form} {gap text : List Char} (blank : IsGap gap)
      (nonempty : gap ≠ []) (rest : Written (g :: fs) text) :
      Written (f :: g :: fs) (f.spelling ++ (gap ++ text))

/-- Forms with single spaces between them. -/
def spaced (fs : List Form) : List Char := [' '].intercalate (fs.map Form.spelling)

/-- What a variable or a function may be called: a letter and at most `nameLimit` characters in all,
and no word that means something else. -/
structure IsName (x : String) : Prop where
  shape : ∃ c cs, x.toList = c :: cs ∧ isLetter c = true ∧ ∀ d ∈ cs, isNameChar d = true
  short : x.toList.length ≤ nameLimit
  notKeyword : Keyword.ofText? x = none
  notTrue : x ≠ "true"
  notFalse : x ≠ "false"

theorem isName_iff {x : String} :
    IsName x ↔ x.toList.head?.any isLetter = true ∧ x.toList.tail.all isNameChar = true ∧
      x.toList.length ≤ nameLimit ∧ Keyword.ofText? x = none ∧ x ≠ "true" ∧ x ≠ "false" := by
  constructor
  · rintro ⟨⟨c, cs, spelled, letter, further⟩, short, notKeyword, notTrue, notFalse⟩
    refine ⟨?_, ?_, short, notKeyword, notTrue, notFalse⟩
    · simpa [spelled] using letter
    · simpa [spelled] using further
  · rintro ⟨letter, further, short, notKeyword, notTrue, notFalse⟩
    refine ⟨?_, short, notKeyword, notTrue, notFalse⟩
    cases spelled : x.toList with
    | nil => simp [spelled] at letter
    | cons c cs =>
      rw [spelled] at letter further
      exact ⟨c, cs, rfl, by simpa using letter, by simpa using further⟩

instance (x : String) : Decidable (IsName x) := decidable_of_iff' _ isName_iff

/-- The literals that have a spelling: every one but a negative integer and a float. -/
inductive Literal.Printable : Literal → Prop where
  | int {n : Int64} (natural : 0 ≤ n) : Printable (.int n)
  | string (s : String) : Printable (.string s)
  | bool (b : Bool) : Printable (.bool b)

/-- The forms that have a spelling. -/
inductive Form.Printable : Form → Prop where
  | symbol (s : Symbol) : Printable (.symbol s)
  | keyword (k : Keyword) : Printable (.keyword k)
  | name {x : String} (isName : IsName x) : Printable (.name x)
  | literal {l : Literal} (printable : l.Printable) : Printable (.literal l)

/-! ## Spellings are lexemes -/

theorem quoted_escape (content : List Char) : Quoted (content.flatMap escape) content := by
  induction content with
  | nil => exact .nil
  | cons c content ih =>
    rw [List.flatMap_cons]
    unfold escape
    split
    next => exact .escaped (by decide) ih
    next => exact .escaped (by decide) ih
    next => exact .escaped (by decide) ih
    next notQuote notBackslash notNewline => exact .plain notQuote notBackslash notNewline ih

/-- A short word is a lexeme of the form that it means. -/
theorem lexeme_of_word {x : String} {c : Char} {cs : List Char} (spelled : x.toList = c :: cs)
    (letter : isLetter c = true) (further : ∀ d ∈ cs, isNameChar d = true)
    (short : x.toList.length ≤ nameLimit) : Lexeme x.toList (.ofWord x) none := by
  have word := Lexeme.word letter further
  rw [← spelled] at word
  have kept : keptWord x.toList = x := by
    rw [keptWord, List.take_of_length_le short, String.ofList_toList]
  rwa [kept, if_neg (Nat.not_lt.2 short)] at word

theorem IsName.ofWord {x : String} (isName : IsName x) : Form.ofWord x = .name x := by
  rw [Form.ofWord, if_neg isName.notTrue, if_neg isName.notFalse, isName.notKeyword]

theorem Keyword.isWord (k : Keyword) :
    (∃ c cs, k.text.toList = c :: cs ∧ isLetter c = true ∧ ∀ d ∈ cs, isNameChar d = true) ∧
      k.text.toList.length ≤ nameLimit ∧ Form.ofWord k.text = .keyword k := by
  rcases k with (_ | _) | _ <;>
    exact ⟨⟨_, _, rfl, by decide, List.all_eq_true.1 (by decide)⟩, by decide, by decide⟩

theorem Keyword.lexeme (k : Keyword) : Lexeme k.text.toList (.keyword k) none := by
  obtain ⟨⟨c, cs, spelled, letter, further⟩, short, means⟩ := k.isWord
  have word := lexeme_of_word spelled letter further short
  rwa [means] at word

theorem boolText_isWord (b : Bool) :
    (∃ c cs, (boolText b).toList = c :: cs ∧ isLetter c = true ∧ ∀ d ∈ cs, isNameChar d = true) ∧
      (boolText b).toList.length ≤ nameLimit ∧
      Form.ofWord (boolText b) = .literal (.bool b) := by
  cases b <;> exact ⟨⟨_, _, rfl, by decide, List.all_eq_true.1 (by decide)⟩, by decide, by decide⟩

/-- The digits of a natural number are read as it, or as the largest number that there is. -/
theorem lexeme_of_toDigits (k : Nat) :
    Lexeme (Nat.toDigits 10 k) (.literal (.int (Int64.ofNat (min k Numeral.limit))))
      (if Numeral.limit < k then some .clamped else none) := by
  obtain ⟨c, cs, spelled⟩ := List.exists_cons_of_ne_nil (Nat.toDigits_ne_nil (n := k) (b := 10))
  have digits : ∀ d ∈ c :: cs, d.isDigit = true := by
    intro d mem
    rw [← spelled] at mem
    exact Nat.isDigit_of_mem_toDigits (by decide) (by decide) mem
  have value : spelledNat (c :: cs) = k := by
    rw [spelledNat, ← spelled, Nat.ofDigitChars_ten_toDigits]
  have integer := Lexeme.integer digits
  rw [value] at integer
  rwa [spelled]

/-- The digits of an integer that is not negative spell the integer, which is not too large. -/
theorem lexeme_of_digits {n : Int64} (natural : 0 ≤ n) :
    Lexeme (Nat.toDigits 10 n.toNatClampNeg) (.literal (.int n)) none := by
  have fits : n.toNatClampNeg ≤ Numeral.limit := by
    have bound := n.toInt_lt
    simp only [Int64.toNatClampNeg, Numeral.limit]
    omega
  have integer := lexeme_of_toDigits n.toNatClampNeg
  rwa [Nat.min_eq_left fits, Int64.ofNat_toNatClampNeg n natural,
    if_neg (Nat.not_lt.2 fits)] at integer

theorem Literal.Printable.lexeme {l : Literal} (printable : l.Printable) :
    Lexeme l.spelling (.literal l) none := by
  cases printable with
  | int natural => exact lexeme_of_digits natural
  | string s =>
    have string := Lexeme.string (quoted_escape s.toList)
    rwa [String.ofList_toList] at string
  | bool b =>
    obtain ⟨⟨c, cs, spelled, letter, further⟩, short, means⟩ := boolText_isWord b
    have word := lexeme_of_word spelled letter further short
    rwa [means] at word

theorem Form.Printable.lexeme {f : Form} (printable : f.Printable) : Lexeme f.spelling f none := by
  cases printable with
  | symbol s => exact .symbol s
  | keyword k => exact k.lexeme
  | name isName =>
    obtain ⟨c, cs, spelled, letter, further⟩ := isName.shape
    have word := lexeme_of_word spelled letter further isName.short
    rwa [isName.ofWord] at word
  | literal printable => exact printable.lexeme

/-! ## Reading written forms -/

theorem Lexeme.longest_append {text rest : List Char} {form : Form} {caution? : Option Caution}
    (lexeme : Lexeme text form caution?) (separates : Separates form rest) :
    Longest (text ++ rest) text form caution? := by
  obtain ⟨c, cs, rfl, read⟩ := lexeme.front_append separates
  obtain ⟨other, form', caution?', read', longest⟩ | ⟨n, read', -⟩ :=
    front_readsFront c (cs ++ rest)
  · obtain ⟨⟨rfl, rfl⟩, length⟩ :
        (form = form' ∧ caution? = caution?') ∧ (c :: cs).length = other.length := by
      simpa [read] using read'
    have same := (List.prefix_of_prefix_length_le (List.prefix_append _ _) longest.atFront
      (Nat.le_of_eq length)).eq_of_length length
    rwa [← same] at longest
  · rw [read] at read'
    cases read'

theorem Form.Printable.ne_comment {f : Form} (printable : f.Printable) : f ≠ .comment := by
  cases printable <;> simp

/-- White space separates every form that has a spelling from what comes behind. -/
theorem Form.Printable.separates {f : Form} (printable : f.Printable) {gap : List Char}
    (blank : IsGap gap) (nonempty : gap ≠ []) (rest : List Char) : Separates f (gap ++ rest) := by
  obtain ⟨c, cs, rfl⟩ := List.exists_cons_of_ne_nil nonempty
  exact ⟨blank c List.mem_cons_self, fun comment => absurd comment printable.ne_comment⟩

/-- The longest match of written forms, behind white space. -/
theorem Written.longestMatch {fs : List Form} {text : List Char} (written : Written fs text)
    (printable : ∀ f ∈ fs, f.Printable) (p : Position) {gap : List Char} (blank : IsGap gap) :
    ∃ scanned, LongestMatch p (gap ++ text) (.ok scanned) ∧
      forms (scanned.map (·.token)) = fs ++ [.finish] ∧ warnings scanned = [] := by
  induction written generalizing p gap with
  | nothing =>
    rw [List.append_nil]
    exact ⟨_, .finish blank, rfl, rfl⟩
  | single f =>
    have longest := (printable f (by simp)).lexeme.longest_append (show Separates f [] from trivial)
    have finish : LongestMatch (p.after (gap ++ f.spelling)) [] _ := .finish (by simp [IsGap])
    rw [← List.append_nil f.spelling]
    exact ⟨_, .lexeme blank longest finish, rfl, rfl⟩
  | @further f g fs space text blankSpace nonempty rest inductionHypothesis =>
    obtain ⟨first, others⟩ := List.forall_mem_cons.1 printable
    have longest := first.lexeme.longest_append (first.separates blankSpace nonempty text)
    obtain ⟨scanned, longestMatch, readForms, silent⟩ :=
      inductionHypothesis others (p.after (gap ++ f.spelling)) blankSpace
    exact ⟨_, .lexeme blank longest longestMatch, by simp [Scanned.at, readForms], silent⟩

/-- Forms written with any white space between them are read back, one for one and behind them the
end of the text, and there is nothing to caution about. -/
theorem tokenize_reads_back {fs : List Form} {text : String} (printable : ∀ f ∈ fs, f.Printable)
    (written : Written fs text.toList) :
    ∃ scanned, tokenize text = .ok scanned ∧
      forms (scanned.map (·.token)) = fs ++ [.finish] ∧ warnings scanned = [] := by
  obtain ⟨scanned, longestMatch, readForms, silent⟩ :=
    written.longestMatch printable .start (show IsGap [] by simp [IsGap])
  rw [List.nil_append] at longestMatch
  exact ⟨scanned, tokenize_of_longestMatch longestMatch, readForms, silent⟩

/-- A word, symbols that begin alike, the largest number, and a string with all that is escaped in
it. -/
def mixedForms : List Form :=
  [.name "x_1", .symbol .bindFront, .symbol .call, .literal (.int Int64.maxValue),
   .literal (.string "\"\\\n//\r"), .keyword .giveBack, .literal (.bool true)]

def mixedText : String :=
  "x_1 \t->>\n->\n\n9223372036854775807 \"\\\"\\\\\\n//\r\"\r\nret true"

theorem mixedText_is_read_back :
    Written mixedForms mixedText.toList ∧ (∀ f ∈ mixedForms, f.Printable) ∧
      ∃ scanned, tokenize mixedText = .ok scanned ∧
        forms (scanned.map (·.token)) = mixedForms ++ [.finish] ∧ warnings scanned = [] := by
  have blank {gap : List Char} (all : gap.all isBlank = true) : IsGap gap := List.all_eq_true.1 all
  have written : Written mixedForms mixedText.toList :=
    .further (.name "x_1") (blank (show [' ', '\t'].all isBlank by decide)) (by simp) <|
    .further (.symbol .bindFront) (blank (show ['\n'].all isBlank by decide)) (by simp) <|
    .further (.symbol .call) (blank (show ['\n', '\n'].all isBlank by decide)) (by simp) <|
    .further (.literal (.int Int64.maxValue))
      (blank (show [' '].all isBlank by decide)) (by simp) <|
    .further (.literal (.string "\"\\\n//\r"))
      (blank (show ['\r', '\n'].all isBlank by decide)) (by simp) <|
    .further (.keyword .giveBack) (blank (show [' '].all isBlank by decide)) (by simp) <|
    .single (.literal (.bool true))
  have printable : ∀ f ∈ mixedForms, f.Printable := by
    simp only [mixedForms, List.forall_mem_cons, List.not_mem_nil, false_implies, implies_true,
      and_true]
    exact ⟨.name (by decide), .symbol _, .symbol _, .literal (.int (by decide)),
      .literal (.string _), .keyword _, .literal (.bool _)⟩
  exact ⟨written, printable, tokenize_reads_back printable written⟩

/-! ### Single spaces -/

theorem spaced_cons (f : Form) {fs : List Form} (nonempty : fs ≠ []) :
    spaced (f :: fs) = f.spelling ++ ([' '] ++ spaced fs) := by
  simp [spaced, List.intercalate_cons_of_ne_nil, nonempty]

/-- Single spaces are white space enough. -/
theorem written_spaced (fs : List Form) : Written fs (spaced fs) := by
  induction fs with
  | nil => exact .nothing
  | cons f fs inductionHypothesis =>
    cases fs with
    | nil =>
      have alone : spaced [f] = f.spelling := by simp [spaced]
      rw [alone]
      exact .single f
    | cons g fs =>
      rw [spaced_cons f (by simp)]
      exact .further f (by simp [IsGap]; decide) (by simp) inductionHypothesis

/-- Reading spaced forms gives them back, and there is nothing to caution about. -/
theorem tokenize_spaced {fs : List Form} (printable : ∀ f ∈ fs, f.Printable) :
    ∃ scanned, tokenize (String.ofList (spaced fs)) = .ok scanned ∧
      forms (codeTokens scanned) = fs ++ [.finish] ∧ warnings scanned = [] := by
  obtain ⟨scanned, longestMatch, readForms, silent⟩ :=
    (written_spaced fs).longestMatch printable .start (show IsGap [] by simp [IsGap])
  have code : codeTokens scanned = scanned.map (·.token) := by
    apply List.filter_eq_self.2
    intro t mem
    have listed : t.form ∈ fs ++ [.finish] := readForms ▸ List.mem_map_of_mem mem
    obtain listed | last : t.form ∈ fs ∨ t.form = .finish := by simpa using listed
    · simpa using (printable t.form listed).ne_comment
    · simp [last]
  refine ⟨scanned, ?_, by rw [code, readForms], silent⟩
  apply tokenize_of_longestMatch
  simpa using longestMatch

end Rightflow
