import Rightflow.Proofs.Parsing

/-!
# Parsers and the tokens they take

`Parser.Takes` says of a parser what its success has to do with the tokens themselves: it takes
tokens from the front which have, with the answer, a given property, and it leaves the rest as it
is.  Of what it leaves it knows the class of the first token at most: behind the same tokens it
answers the same, whatever else stands there, as long as that begins with a token of the same class.

There is one rule for each operation.  A parser that looks at the next token either takes it later
on or goes on in the same way for all tokens of its class.
-/

namespace Rightflow

/-! ## Classes of token -/

/-- What a token is, up to the content of a name or of a literal. -/
inductive TokenClass where
  | symbol (s : Symbol)
  | keyword (k : Keyword)
  | name
  | int
  | flt
  | string
  | bool
  | comment
  | finish
deriving DecidableEq, Repr

def Literal.tokenClass : Literal → TokenClass
  | .int _ => .int
  | .flt _ => .flt
  | .string _ => .string
  | .bool _ => .bool

def Form.tokenClass : Form → TokenClass
  | .symbol s => .symbol s
  | .keyword k => .keyword k
  | .name _ => .name
  | .literal l => l.tokenClass
  | .comment => .comment
  | .finish => .finish

/-- The class of the first token.  Behind the last one, the list goes on with the end. -/
def nextClass (tokens : List Token) : TokenClass := (ahead (forms tokens)).tokenClass

theorem Literal.tokenClass_cases (l : Literal) :
    l.tokenClass = .int ∨ l.tokenClass = .flt ∨ l.tokenClass = .string ∨ l.tokenClass = .bool := by
  cases l <;> simp [tokenClass]

@[simp] theorem Form.tokenClass_eq_symbol {f : Form} {s : Symbol} :
    f.tokenClass = .symbol s ↔ f = .symbol s := by
  cases f <;> grind [tokenClass, Literal.tokenClass_cases]

@[simp] theorem Form.tokenClass_eq_keyword {f : Form} {k : Keyword} :
    f.tokenClass = .keyword k ↔ f = .keyword k := by
  cases f <;> grind [tokenClass, Literal.tokenClass_cases]

@[simp] theorem Form.tokenClass_eq_comment {f : Form} : f.tokenClass = .comment ↔ f = .comment := by
  cases f <;> grind [tokenClass, Literal.tokenClass_cases]

@[simp] theorem Form.tokenClass_eq_finish {f : Form} : f.tokenClass = .finish ↔ f = .finish := by
  cases f <;> grind [tokenClass, Literal.tokenClass_cases]

/-- Apart from names and literals, a form is known by its class. -/
theorem Form.congr_of_tokenClass {α : Type} {k : Form → α} {plain : α} {f g : Form}
    (names : ∀ x, k (.name x) = plain) (literals : ∀ value, k (.literal value) = plain)
    (alike : f.tokenClass = g.tokenClass) : k f = k g := by
  cases f with
  | symbol s => rw [Form.tokenClass_eq_symbol.1 alike.symm]
  | keyword w => rw [Form.tokenClass_eq_keyword.1 alike.symm]
  | finish => rw [Form.tokenClass_eq_finish.1 alike.symm]
  | comment => rw [Form.tokenClass_eq_comment.1 alike.symm]
  | name x =>
    cases g with
    | name y => rw [names, names]
    | literal value => rw [names, literals]
    | symbol | keyword | comment | finish => cases alike
  | literal value =>
    cases g with
    | name y => rw [names, literals]
    | literal other => rw [literals, literals]
    | symbol | keyword | comment | finish => cases value <;> cases alike

@[simp] theorem nextClass_nil : nextClass [] = .finish := rfl

@[simp] theorem nextClass_cons (t : Token) (tokens : List Token) :
    nextClass (t :: tokens) = t.form.tokenClass := rfl

/-- What stands behind the same tokens is of the same class, and so is the whole. -/
theorem nextClass_append {rest other : List Token} (taken : List Token)
    (same : nextClass other = nextClass rest) :
    nextClass (taken ++ other) = nextClass (taken ++ rest) := by
  cases taken with
  | nil => exact same
  | cons t taken => rfl

/-- The position of the first of some tokens. -/
def firstPosition (tokens : List Token) : Position := tokens.head?.elim .start (·.position)

@[simp] theorem firstPosition_cons (t : Token) (tokens : List Token) :
    firstPosition (t :: tokens) = t.position := rfl

theorem firstPosition_append {tokens : List Token} (nonempty : tokens ≠ []) (rest : List Token) :
    firstPosition (tokens ++ rest) = firstPosition tokens := by
  obtain ⟨t, ts, rfl⟩ := List.exists_cons_of_ne_nil nonempty
  rfl

@[simp] theorem forms_append (tokens rest : List Token) :
    forms (tokens ++ rest) = forms tokens ++ forms rest :=
  List.map_append

@[simp] theorem forms_eq_nil {tokens : List Token} : forms tokens = [] ↔ tokens = [] :=
  List.map_eq_nil_iff

/-! ## Stretches of tokens -/

/-- The tokens are the stretches, one behind the other, with a comma between any two. -/
inductive CommasBetween : List (List Token) → List Token → Prop where
  | nil : CommasBetween [] []
  | one (tokens : List Token) : CommasBetween [tokens] tokens
  | cons {first tokens : List Token} {comma : Token} {stretches : List (List Token)}
      (separates : comma.form = .symbol .comma) (nonempty : stretches ≠ [])
      (further : CommasBetween stretches tokens) :
      CommasBetween (first :: stretches) (first ++ comma :: tokens)

theorem CommasBetween.forms_eq {stretches : List (List Token)} {tokens : List Token}
    (between : CommasBetween stretches tokens) :
    forms tokens = commaSeparated (stretches.map forms) := by
  induction between with
  | nil => rfl
  | one tokens => simp
  | cons separates nonempty further inductionHypothesis =>
    rw [List.map_cons, commaSeparated_cons _ (by simpa using nonempty), forms_append, forms_cons,
      separates, inductionHypothesis]

/-- Without the commas, the stretches remain. -/
theorem CommasBetween.flatten_sublist {stretches : List (List Token)} {tokens : List Token}
    (between : CommasBetween stretches tokens) : stretches.flatten.Sublist tokens := by
  induction between with
  | nil => exact .refl _
  | one tokens => simp
  | cons separates nonempty further inductionHypothesis =>
    rw [List.flatten_cons]
    exact (List.Sublist.refl _).append (inductionHypothesis.cons _)

namespace Parser

variable {α β : Type} {tokens : List Token}

/-! ## What is taken -/

/-- Every success of the parser takes tokens from the front that, with the answer, satisfy the
property.  Behind these tokens it answers the same and leaves what stands there, as long as that
begins with a token of the same class. -/
def Takes (p : Parser α) (tokens : List Token) (property : List Token → α → Prop) : Prop :=
  ∀ a rest, p tokens = .ok a rest →
    ∃ taken, tokens = taken ++ rest ∧ property taken a ∧
      ∀ other, nextClass other = nextClass rest → p (taken ++ other) = .ok a other

namespace Takes

variable {p : Parser α} {k : α → Parser β} {P : List Token → α → Prop} {Q : List Token → β → Prop}

theorem mono {P' : List Token → α → Prop} (takes : Takes p tokens P)
    (imp : ∀ taken a, P taken a → P' taken a) : Takes p tokens P' := by
  intro a rest run
  obtain ⟨taken, split, holds, again⟩ := takes a rest run
  exact ⟨taken, split, imp taken a holds, again⟩

/-- What is known of the forms that are taken is known of those of the tokens. -/
theorem and_yields {Q : List Form → α → Prop} (takes : Takes p tokens P)
    (yields : Yields p tokens Q) : Takes p tokens fun taken a => P taken a ∧ Q (forms taken) a := by
  intro a rest run
  obtain ⟨taken, split, holds, again⟩ := takes a rest run
  obtain ⟨fs, split', holds'⟩ := yields a rest run
  rw [split, forms_append, List.append_cancel_right_eq] at split'
  exact ⟨taken, split, ⟨holds, split' ▸ holds'⟩, again⟩

theorem length_le (takes : Takes p tokens P) {a : α} {rest : List Token}
    (run : p tokens = .ok a rest) : rest.length ≤ tokens.length := by
  obtain ⟨taken, rfl, -⟩ := takes a rest run
  simp

theorem length_lt (takes : Takes p tokens P) (nonempty : ∀ taken a, P taken a → taken ≠ []) {a : α}
    {rest : List Token} (run : p tokens = .ok a rest) : rest.length < tokens.length := by
  obtain ⟨taken, rfl, holds, -⟩ := takes a rest run
  have pos := List.length_pos_of_ne_nil (nonempty taken a holds)
  rw [List.length_append]
  omega

theorem pure {a : α} (holds : P [] a) : Takes (pure a) tokens P := by
  intro b rest run
  cases run
  exact ⟨[], rfl, holds, fun _ _ => rfl⟩

theorem bind (first : Takes p tokens P)
    (further : ∀ a taken rest, P taken a → Takes (k a) rest fun more b => Q (taken ++ more) b) :
    Takes (p >>= k) tokens Q := by
  intro b rest run
  rw [bind_run] at run
  cases middle : p tokens with
  | error e left => simp [middle] at run
  | ok a left =>
    rw [middle] at run
    obtain ⟨taken, split, holds, again⟩ := first a left middle
    obtain ⟨more, split', holds', again'⟩ := further a taken left holds b rest run
    refine ⟨taken ++ more, by rw [split, split', List.append_assoc], holds', fun other same => ?_⟩
    have behind : nextClass (more ++ other) = nextClass left := split' ▸ nextClass_append more same
    rw [List.append_assoc, bind_run, again _ behind]
    exact again' other same

theorem exhausted : Takes exhausted tokens P := nofun

theorem fail (cause : ParseCause) (position : Position) :
    Takes (fail cause position) tokens P := nofun

theorem unexpected (t : Token) (expected : Expected) :
    Takes (unexpected t expected) tokens P := nofun

/-- An operation that looks at the next token and takes none, before one that takes it. -/
theorem of_look {γ : Type} {look : Parser γ} {k : γ → Parser β} (seen : Option Token → γ)
    (run : ∀ tokens, look tokens = .ok (seen tokens.head?) tokens)
    (nonempty : ∀ taken b, Q taken b → taken ≠ [])
    (further : Takes (k (seen tokens.head?)) tokens Q) : Takes (look >>= k) tokens Q := by
  intro b rest answered
  rw [bind_run, run] at answered
  obtain ⟨taken, rfl, holds, again⟩ := further b rest answered
  refine ⟨taken, rfl, holds, fun other same => ?_⟩
  -- The token that was looked at is the first of those that are taken.
  obtain ⟨t, taken, rfl⟩ := List.exists_cons_of_ne_nil (nonempty taken b holds)
  rw [bind_run, run]
  exact again other same

theorem peek {k : Form → Parser β} (nonempty : ∀ taken b, Q taken b → taken ≠ [])
    (further : Takes (k (ahead (forms tokens))) tokens Q) : Takes (peek >>= k) tokens Q := by
  refine of_look (·.elim .finish (·.form)) (fun _ => rfl) nonempty ?_
  cases tokens <;> exact further

/-- Looking at the next token, where no content of a name or of a literal matters. -/
theorem peekClass {k : Form → Parser β} {plain : Parser β} (names : ∀ x, k (.name x) = plain)
    (literals : ∀ value, k (.literal value) = plain)
    (further : Takes (k (ahead (forms tokens))) tokens Q) : Takes (Parser.peek >>= k) tokens Q := by
  intro b rest run
  rw [bind_run, peek_run] at run
  obtain ⟨taken, rfl, holds, again⟩ := further b rest run
  refine ⟨taken, rfl, holds, fun other same => ?_⟩
  have looked : (Parser.peek >>= k) (taken ++ other) =
      k (ahead (forms (taken ++ other))) (taken ++ other) := by rw [bind_run, peek_run]
  rw [looked, Form.congr_of_tokenClass names literals (nextClass_append taken same)]
  exact again other same

theorem peekToken? {k : Option Token → Parser β} (nonempty : ∀ taken b, Q taken b → taken ≠ [])
    (further : Takes (k tokens.head?) tokens Q) : Takes (peekToken? >>= k) tokens Q :=
  of_look id (fun _ => rfl) nonempty further

/-- The position that is looked at is that of the first token that is taken. -/
theorem peekPosition {k : Position → Parser β}
    (further : ∀ position, Takes (k position) tokens fun taken b =>
      taken ≠ [] ∧ (firstPosition taken = position → Q taken b)) :
    Takes (peekPosition >>= k) tokens Q := by
  have looked : Takes (Parser.peekPosition >>= k) tokens fun taken b =>
      taken ≠ [] ∧ (firstPosition taken = firstPosition tokens → Q taken b) :=
    of_look (·.elim .start (·.position)) (fun _ => rfl) (fun _ _ holds => holds.1)
      (further _)
  intro b rest run
  obtain ⟨taken, split, ⟨nonempty, holds⟩, again⟩ := looked b rest run
  exact ⟨taken, split, holds (by rw [split, firstPosition_append nonempty]), again⟩

theorem next {k : Token → Parser β}
    (further : ∀ t rest, tokens = t :: rest → Takes (k t) rest fun more b => Q (t :: more) b) :
    Takes (next >>= k) tokens Q := by
  intro b left run
  rw [bind_run] at run
  cases tokens with
  | nil => cases run
  | cons t rest =>
    obtain ⟨taken, rfl, holds, again⟩ := further t rest rfl b left run
    exact ⟨t :: taken, rfl, holds, again⟩

theorem accept {s : Symbol} {k : Bool → Parser β}
    (found : ∀ t rest, t.form = .symbol s → Takes (k true) rest fun more b => Q (t :: more) b)
    (absent : Takes (k false) tokens Q) : Takes (accept (.symbol s) >>= k) tokens Q := by
  have accept_absent : ∀ tokens, nextClass tokens ≠ .symbol s →
      Parser.accept (.symbol s) tokens = .ok false tokens := by
    intro tokens other
    cases tokens with
    | nil => rfl
    | cons t rest => rw [accept_cons, if_neg (by simpa using other)]
  intro b left run
  by_cases other : nextClass tokens = .symbol s
  · cases tokens with
    | nil => simp at other
    | cons t rest =>
      have same : t.form = .symbol s := by simpa using other
      rw [bind_run, accept_cons, if_pos same] at run
      obtain ⟨taken, rfl, holds, again⟩ := found t rest same b left run
      refine ⟨t :: taken, rfl, holds, fun other alike => ?_⟩
      rw [List.cons_append, bind_run, accept_cons, if_pos same]
      exact again other alike
  · rw [bind_run, accept_absent _ other] at run
    obtain ⟨taken, rfl, holds, again⟩ := absent b left run
    refine ⟨taken, rfl, holds, fun rest alike => ?_⟩
    rw [bind_run, accept_absent _ (nextClass_append taken alike ▸ other)]
    exact again rest alike

theorem expect {f : Form} {k : Position → Parser β}
    (further : ∀ t rest, t.form = f →
      Takes (k t.position) rest fun more b => Q (t :: more) b) :
    Takes (expect f >>= k) tokens Q := by
  rw [Parser.expect, bind_assoc]
  refine next fun t rest _ => ?_
  by_cases same : t.form = f
  · simp only [same, if_true, pure_bind]
    exact further t rest same
  · intro b left run
    simp only [same, if_false] at run
    rw [bind_run] at run
    cases run

theorem identifier {k : String × Position → Parser β}
    (further : ∀ t x rest, t.form = .name x →
      Takes (k (x, t.position)) rest fun more b => Q (t :: more) b) :
    Takes (identifier >>= k) tokens Q := by
  rw [Parser.identifier, bind_assoc]
  refine next fun t rest _ => ?_
  cases form : t.form with
  | name x =>
    simp only [pure_bind]
    exact further t x rest form
  | symbol | keyword | literal | comment | finish =>
    intro b left run
    rw [bind_run] at run
    cases run

end Takes

/-! ## Lists -/

section Lists

variable {item : Parser α} {closing : Symbol} {P : List Token → α → Prop}

/-- Items with commas between them are taken, and the symbol that closes their list. -/
theorem items_take (n : Nat) (each : ∀ tokens, Takes item tokens P) :
    ∀ tokens, Takes (items item closing n) tokens fun taken as =>
      ∃ (parts : List (List Token × α)) (inner : List Token) (last : Token), parts ≠ [] ∧
        (∀ part ∈ parts, P part.1 part.2) ∧ CommasBetween (parts.map (·.1)) inner ∧
        last.form = .symbol closing ∧ taken = inner ++ [last] ∧ as = parts.map (·.2) := by
  induction n with
  | zero => exact fun _ => .exhausted
  | succ n inductionHypothesis =>
    intro tokens
    refine (each tokens).bind fun a taken rest holds => .next fun t left _ => ?_
    split
    next comma =>
      refine (inductionHypothesis left).bind fun as more _ found => .pure ?_
      obtain ⟨parts, inner, last, nonempty, all, between, closes, rfl, rfl⟩ := found
      refine ⟨(taken, a) :: parts, taken ++ t :: inner, last, by simp, ?_, ?_, closes, by simp, rfl⟩
      · simpa using ⟨holds, by simpa using all⟩
      · exact .cons comma (by simpa using nonempty) between
    next =>
      split
      next closes =>
        exact .pure ⟨[(taken, a)], taken, t, by simp, by simpa using holds, .one taken, closes, rfl,
          rfl⟩
      next => exact .unexpected t _

theorem list_takes (n : Nat) (each : ∀ tokens, Takes item tokens P) (tokens : List Token) :
    Takes (list item closing n) tokens fun taken as =>
      ∃ (parts : List (List Token × α)) (inner : List Token) (last : Token),
        (∀ part ∈ parts, P part.1 part.2) ∧ CommasBetween (parts.map (·.1)) inner ∧
        last.form = .symbol closing ∧ taken = inner ++ [last] ∧ as = parts.map (·.2) := by
  refine .accept (fun t rest closes => ?_) ?_
  · exact .pure ⟨[], [], t, by simp, .nil, closes, rfl, rfl⟩
  · refine (items_take n each tokens).mono fun taken as found => ?_
    obtain ⟨parts, inner, last, -, others⟩ := found
    exact ⟨parts, inner, last, others⟩

end Lists

end Parser

end Rightflow
