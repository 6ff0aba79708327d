import Rightflow.Proofs.EvaluationPositions
import Rightflow.Proofs.ParserPositions

/-!
# Where diagnostics point

Every error points into the source text that it is about.  Where no lexeme begins, the error stands
at the character where none does.  An error of the grammar stands at a token, and so does whatever
goes wrong while the tree that was read off the tokens is evaluated.

Nothing has to be followed through the evaluation for that.  Parsers and evaluations hand positions
on, so that a change of positions that leaves those of the tokens as they are changes neither the
tree nor what comes of it; and if it changes all other positions, what is raised can stand nowhere
but at a token.
-/

namespace Rightflow

/-! ## Positions of a source -/

/-- A token of the source that is no comment stands at the position. -/
def HasToken (source : String) (p : Position) : Prop :=
  ∃ scanned, tokenize source = .ok scanned ∧ ∃ t ∈ codeTokens scanned, t.position = p

/-- A change of positions that leaves the tokens of the source where they are. -/
def Fixes (source : String) (f : Position → Position) : Prop := ∀ p, HasToken source p → f p = p

/-- The change that leaves some positions as they are and moves all others to the next line. -/
def Position.keeping (kept : List Position) (p : Position) : Position :=
  if p ∈ kept then p else ⟨p.line + 1, p.column⟩

theorem Position.keeping_eq_iff {kept : List Position} {p : Position} :
    keeping kept p = p ↔ p ∈ kept := by
  unfold keeping
  by_cases member : p ∈ kept
  · simp [member]
  · rw [if_neg member]
    refine ⟨fun same => ?_, fun member' => absurd member' member⟩
    have line : p.line + 1 = p.line := congrArg Position.line same
    omega

/-- What no change moves that leaves the tokens where they are, is the position of a token. -/
theorem HasToken.of_fixed {source : String} {scanned : List Scanned}
    (success : tokenize source = .ok scanned) {p : Position}
    (fixed : ∀ f, Fixes source f → f p = p) : HasToken source p := by
  have fixes : Fixes source (Position.keeping ((codeTokens scanned).map Token.position)) := by
    rintro q ⟨scanned', success', t, member, rfl⟩
    obtain rfl : scanned = scanned' := Except.ok.inj (success.symm.trans success')
    exact Position.keeping_eq_iff.2 (List.mem_map_of_mem member)
  -- That change moves every position but those of the tokens, so `p` is one of them.
  obtain ⟨t, member, same⟩ := List.mem_map.1 (Position.keeping_eq_iff.1 (fixed _ fixes))
  exact ⟨scanned, success, t, member, same⟩

theorem Fixes.codeTokens {source : String} {scanned : List Scanned} {f : Position → Position}
    (fixes : Fixes source f) (success : tokenize source = .ok scanned) :
    (codeTokens scanned).map (Token.relocate f) = codeTokens scanned := by
  refine (List.map_congr_left fun t member => ?_).trans (List.map_id _)
  have kept : f t.position = t.position := fixes _ ⟨scanned, success, t, member, rfl⟩
  simp [Token.relocate, kept]

/-! ## Lexemes -/

/-- What is read before some text that is left: longest lexemes with white space before them. -/
inductive ReadUpTo (left : List Char) : List Char → Prop where
  | nil : ReadUpTo left []
  | lexeme {gap lexeme read : List Char} {form : Form} {caution? : Option Caution}
      (blank : IsGap gap) (longest : Longest (lexeme ++ (read ++ left)) lexeme form caution?)
      (further : ReadUpTo left read) : ReadUpTo left (gap ++ (lexeme ++ read))

/-- The error stands where reading the source stops: behind the lexemes that are read and some white
space, at a character with which no lexeme begins. -/
def StopsAt (source : String) (e : LexError) : Prop :=
  ∃ (read gap rest : List Char) (c : Char), source.toList = read ++ (gap ++ c :: rest) ∧
    ReadUpTo (gap ++ c :: rest) read ∧ IsGap gap ∧ isBlank c = false ∧
    (∀ lexeme form caution?, Lexeme lexeme form caution? → ¬ lexeme <+: c :: rest) ∧
    e = ⟨.missing c, Position.start.after (read ++ gap)⟩

theorem LongestMatch.stops {p : Position} {text : List Char}
    {result : Except LexError (List Scanned)} (longestMatch : LongestMatch p text result) :
    ∀ e, result = .error e → ∃ (read gap rest : List Char) (c : Char),
      text = read ++ (gap ++ c :: rest) ∧ ReadUpTo (gap ++ c :: rest) read ∧ IsGap gap ∧
      isBlank c = false ∧
      (∀ lexeme form caution?, Lexeme lexeme form caution? → ¬ lexeme <+: c :: rest) ∧
      e = ⟨.missing c, p.after (read ++ gap)⟩ := by
  induction longestMatch with
  | finish blank => rintro _ ⟨⟩
  | @fault p gap rest c blank visible none =>
    rintro _ ⟨⟩
    exact ⟨[], gap, rest, c, rfl, .nil, blank, visible, none, rfl⟩
  | @lexeme p gap lexeme rest form caution? result blank longest further inductionHypothesis =>
    intro e answered
    cases result with
    | ok scanned => cases answered
    | error e' =>
      cases answered
      obtain ⟨read, gap', rest', c, rfl, upTo, blank', visible, none, rfl⟩ :=
        inductionHypothesis _ rfl
      refine ⟨gap ++ (lexeme ++ read), gap', rest', c, by simp, .lexeme blank longest upTo, blank',
        visible, none, ?_⟩
      simp [Position.after_append]

/-! ## Trees -/

namespace Parser

variable {α : Type} {move : (Position → Position) → α → α} {p : Nat → Parser α} {source : String}
  {scanned : List Scanned}

theorem HandsOnWhole.result_fixed (handsOn : HandsOnWhole move p)
    (success : tokenize source = .ok scanned) {f : Position → Position} (fixes : Fixes source f) :
    relocateOutcome f (move f) (Parser.result p (codeTokens scanned)) =
      Parser.result p (codeTokens scanned) := by
  rw [← handsOn.result (codeTokens_end success), fixes.codeTokens success]

/-- An error of the grammar stands at a token. -/
theorem HandsOnWhole.points (handsOn : HandsOnWhole move p)
    (success : tokenize source = .ok scanned) {e : ParseError}
    (failed : Parser.result p (codeTokens scanned) = .error (.fault (.grammatical e))) :
    e.cause ≠ .endOfTokens ∧ HasToken source e.position := by
  refine ⟨handsOn.found (codeTokens_end success) failed, .of_fixed success fun f fixes => ?_⟩
  have fixed := handsOn.result_fixed success fixes
  rw [failed] at fixed
  injection fixed with fixed
  injection fixed with fixed
  injection fixed with fixed
  exact congrArg ParseError.position fixed

theorem parseText_fails (handsOn : HandsOnWhole move p) {e : ParseError}
    (failed : parseText p source = .error (.fault (.grammatical e))) :
    e.cause ≠ .endOfTokens ∧ HasToken source e.position := by
  cases success : tokenize source with
  | error e' => simp [parseText, success] at failed
  | ok scanned =>
    rw [parseText_of_tokenize p success] at failed
    cases result : Parser.result p (codeTokens scanned) with
    | ok a => rw [result] at failed; cases failed
    | error halt =>
      rw [result] at failed
      cases failed
      exact handsOn.points success result

/-- A tree that is read off a text stands at its tokens. -/
theorem parseText_fixed (handsOn : HandsOnWhole move p) {a : α} {cautions : List Warning}
    (parsed : parseText p source = .ok (a, cautions)) :
    (∃ scanned, tokenize source = .ok scanned) ∧ ∀ f, Fixes source f → move f a = a := by
  cases success : tokenize source with
  | error e => simp [parseText, success] at parsed
  | ok scanned =>
    rw [parseText_of_tokenize p success] at parsed
    refine ⟨⟨scanned, rfl⟩, fun f fixes => ?_⟩
    have fixed := handsOn.result_fixed success fixes
    cases result : Parser.result p (codeTokens scanned) with
    | error halt => rw [result] at parsed; cases parsed
    | ok b =>
      rw [result] at parsed fixed
      cases parsed
      exact Except.ok.inj fixed

end Parser

/-- An expression is read by its parser, and what there is to caution about is left out. -/
theorem parseText_of_parseExpression_error {source : String} {halt : Halt Error}
    (failed : parseExpression source = .error halt) :
    parseText Parser.standalone source = .error halt := by
  unfold parseExpression at failed
  cases read : parseText Parser.standalone source with
  | ok result => rw [read] at failed; cases failed
  | error halt' => rw [read] at failed; cases failed; rfl

theorem parseText_of_parseExpression {source : String} {e : Expr}
    (parsed : parseExpression source = .ok e) :
    ∃ cautions, parseText Parser.standalone source = .ok (e, cautions) := by
  unfold parseExpression at parsed
  cases read : parseText Parser.standalone source with
  | ok result => rw [read] at parsed; cases parsed; exact ⟨result.2, rfl⟩
  | error halt => rw [read] at parsed; cases parsed

/-! ## Evaluations -/

/-- Whatever stands in the machine stands at a token of the source: no change of positions changes
the machine that leaves the tokens where they are. -/
def Machine.Within (source : String) (m : Machine) : Prop :=
  ∀ f, Fixes source f → m.relocate f = m

theorem Machine.within_ofBuiltins (source : String) (builtins : List Builtin) (sink : Sink) :
    (Machine.ofBuiltins builtins sink).Within source := fun f _ =>
  Machine.relocate_ofBuiltins f builtins sink

/-- A fault, unless it is that there is no main function, stands at a token of the source, and so
does whatever stands in the machine that is left. -/
structure Ending.Within {α : Type} (source : String) (ending : Ending α) : Prop where
  machine : (Ending.machine ending).Within source
  points : ∀ fault, Ending.result ending = .error (.fault fault) →
    fault = .missingMain ∨ ∃ p, fault.position? = some p ∧ HasToken source p

/-- An ending that changes with no position but those of tokens. -/
theorem Ending.within_of_fixed {α : Type} {source : String} {scanned : List Scanned}
    (success : tokenize source = .ok scanned) {move : (Position → Position) → α → α}
    {ending : Ending α} (fixed : ∀ f, Fixes source f → Ending.relocate f (move f) ending = ending) :
    ending.Within source := by
  cases ending with
  | ok a m =>
    refine ⟨fun f fixes => ?_, nofun⟩
    injection fixed f fixes
  | error halt m =>
    constructor
    case machine =>
      intro f fixes
      injection fixed f fixes
    case points =>
      rintro fault ⟨⟩
      cases fault with
      | missingMain => exact .inl rfl
      | located p cause =>
        refine .inr ⟨p, rfl, .of_fixed success fun f fixes => ?_⟩
        injection fixed f fixes with same
        injection same with same
        injection same

section

variable {source : String} {m : Machine}

/-- An action that follows itself when positions are changed, but those of the tokens. -/
theorem Action.within_of_follows {α : Type} {scanned : List Scanned}
    (success : tokenize source = .ok scanned) {move : (Position → Position) → α → α}
    {action : Action α} (follows : ∀ f, Fixes source f → Follows f (move f) action action)
    (within : m.Within source) : Ending.Within source (action m) := by
  have unmoved : ∀ f, Fixes source f → Ending.relocate f (move f) (action m) = action m := by
    intro f fixes
    have same := follows f fixes m
    rw [within f fixes] at same
    exact same.symm
  exact Ending.within_of_fixed success unmoved

theorem run_within [Memory] {program : Program} {cautions : List Warning}
    (parsed : parseProgram source = .ok (program, cautions)) (within : m.Within source) (n : Nat) :
    Ending.Within source (Action.run n program m) := by
  obtain ⟨⟨scanned, success⟩, fixed⟩ := Parser.parseText_fixed Parser.program_relocates parsed
  have follows : ∀ f, Fixes source f →
      Action.Follows f id (Action.run n program) (Action.run n program) := by
    intro f fixes
    have follows := Action.run_follows (f := f) n program
    rwa [fixed f fixes] at follows
  exact Action.within_of_follows success follows within

theorem eval_within [Memory] {e : Expr} (parsed : parseExpression source = .ok e)
    (within : m.Within source) (n : Nat) : Ending.Within source (Action.eval n e m) := by
  obtain ⟨cautions, read⟩ := parseText_of_parseExpression parsed
  obtain ⟨⟨scanned, success⟩, fixed⟩ := Parser.parseText_fixed Parser.standalone_relocates read
  have follows : ∀ f, Fixes source f →
      Action.Follows f (Value.relocate f) (Action.eval n e) (Action.eval n e) := by
    intro f fixes
    have follows := ((Action.evaluation_relocates (f := f) n).eval e).follows
    rwa [fixed f fixes] at follows
  exact Action.within_of_follows success follows within

end

/-- Errors point into the source: an error of the lexicon at the character at which reading stops,
an error of the grammar at a token, without ever running out of tokens, and a fault of a program or
of an expression at a token of the text that it was read from, on every machine in which nothing
stands elsewhere. -/
theorem diagnostics_point_into_source [Memory] (source : String) :
    (∀ e, tokenize source = .error e → StopsAt source e) ∧
    (∀ e, parseProgram source = .error (.fault (.grammatical e)) →
      e.cause ≠ .endOfTokens ∧ HasToken source e.position) ∧
    (∀ e, parseExpression source = .error (.fault (.grammatical e)) →
      e.cause ≠ .endOfTokens ∧ HasToken source e.position) ∧
    (∀ builtins sink, (Machine.ofBuiltins builtins sink).Within source) ∧
    (∀ program cautions, parseProgram source = .ok (program, cautions) →
      ∀ m : Machine, m.Within source → ∀ n, Ending.Within source (Action.run n program m)) ∧
    ∀ e, parseExpression source = .ok e →
      ∀ m : Machine, m.Within source → ∀ n, Ending.Within source (Action.eval n e m) := by
  refine ⟨(longestMatch_tokenize source).stops, fun e failed => ?_, fun e failed => ?_,
    Machine.within_ofBuiltins source, fun program cautions parsed m within n => ?_,
    fun e parsed m within n => ?_⟩
  · exact Parser.parseText_fails Parser.program_relocates failed
  · exact Parser.parseText_fails Parser.standalone_relocates
      (parseText_of_parseExpression_error failed)
  · exact run_within parsed within n
  · exact eval_within parsed within n

/-- A character with which no lexeme begins, a program and a group that are not finished, and a
division by zero, which stands at its left operand, in an expression and in a main function. -/
theorem mistakes_point_into_source :
    (tokenize "1 ?" = .error ⟨.unexpectedCharacter '?', ⟨1, 3⟩⟩ ∧
      StopsAt "1 ?" ⟨.unexpectedCharacter '?', ⟨1, 3⟩⟩) ∧
    (parseProgram "int" =
        .error (.fault (.grammatical ⟨.unexpected .identifier .finish, ⟨1, 4⟩⟩)) ∧
      HasToken "int" ⟨1, 4⟩) ∧
    (parseExpression "(1" =
        .error (.fault (.grammatical ⟨.unexpected (.listEnd .rightParen) .finish, ⟨1, 3⟩⟩)) ∧
      HasToken "(1" ⟨1, 3⟩) ∧
    ((∃ result, parseProgram "int main\x7bret 1/0;\x7d" = .ok result ∧
        Ending.result (Action.run 9 result.1 .standard) =
          .error (.fault (.located ⟨1, 14⟩ .divisionByZero))) ∧
      HasToken "int main\x7bret 1/0;\x7d" ⟨1, 14⟩) ∧
    (let e : Expr := .binary .div (.literal (.int 1) ⟨1, 1⟩) (.literal (.int 0) ⟨1, 3⟩) ⟨1, 1⟩;
      parseExpression "1/0" = .ok e ∧
      Ending.result (Action.eval 9 e .standard) =
        .error (.fault (.located ⟨1, 1⟩ .divisionByZero)) ∧
      HasToken "1/0" ⟨1, 1⟩) := by
  have points := diagnostics_point_into_source
  refine ⟨?character, ?program, ?group, ?main, ?quotient⟩
  case character =>
    have failed : tokenize "1 ?" = .error ⟨.unexpectedCharacter '?', ⟨1, 3⟩⟩ := by rfl
    exact ⟨failed, (points _).1 _ failed⟩
  case program =>
    have failed : parseProgram "int" =
        .error (.fault (.grammatical ⟨.unexpected .identifier .finish, ⟨1, 4⟩⟩)) := by rfl
    exact ⟨failed, ((points _).2.1 _ failed).2⟩
  case group =>
    have failed : parseExpression "(1" =
        .error (.fault (.grammatical ⟨.unexpected (.listEnd .rightParen) .finish, ⟨1, 3⟩⟩)) := by
      rfl
    exact ⟨failed, ((points _).2.2.1 _ failed).2⟩
  case main =>
    -- The tree itself is not written out: it is enough that there is one and that it fails.
    have divides : (parseProgram "int main\x7bret 1/0;\x7d").toOption.any (fun result =>
        Ending.result (Action.run 9 result.1 .standard) =
          .error (.fault (.located ⟨1, 14⟩ .divisionByZero))) = true := by decide +kernel
    obtain ⟨result, read, raised⟩ := (Option.any_eq_true _ _).1 divides
    have raised := of_decide_eq_true raised
    have parsed : parseProgram "int main\x7bret 1/0;\x7d" = .ok result := by
      cases outcome : parseProgram "int main\x7bret 1/0;\x7d" with
      | ok result' => rw [outcome] at read; exact congrArg Except.ok (Option.some.inj read)
      | error halt => rw [outcome] at read; cases read
    have within := (points "int main\x7bret 1/0;\x7d").2.2.2.1 Builtin.standard {}
    obtain missing | ⟨p, same, token⟩ :=
      ((points _).2.2.2.2.1 _ _ parsed .standard within 9).points _ raised
    · cases missing
    · cases same
      exact ⟨⟨result, parsed, raised⟩, token⟩
  case quotient =>
    intro e
    have parsed : parseExpression "1/0" = .ok e := by rfl
    have raised : Ending.result (Action.eval 9 e .standard) =
        .error (.fault (.located ⟨1, 1⟩ .divisionByZero)) := by rfl
    have within := (points "1/0").2.2.2.1 Builtin.standard {}
    obtain missing | ⟨p, same, token⟩ :=
      ((points _).2.2.2.2.2 e parsed .standard within 9).points _ raised
    · cases missing
    · cases same
      exact ⟨parsed, raised, token⟩

end Rightflow
