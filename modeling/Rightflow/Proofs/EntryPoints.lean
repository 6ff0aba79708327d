import Rightflow.Proofs.Arithmetic
import Rightflow.Proofs.Bounds
import Rightflow.Proofs.DefinitionOrder
import Rightflow.Proofs.Seclusion

/-!
# Expressions and the programs that return them

An expression can be evaluated by itself, or be returned by the main function of a program.  For the
texts of both there is one answer (`expressions_are_their_programs`).

Three things have to be compared.  The text of the expression is read as it is read alone, since the
line behind it ends whatever token comes last (`LongestMatch.reads_line`).  The forms of the
expression derive the same tree between `ret` and `;`, with no name that the text does not mention
(`ExprText.mem_of_mem_names`).  And a call of the main function evaluates the tree among the
functions that there are and itself, in a frame where nothing is declared, which makes no difference
to an expression that does not name the function (`Action.run_returningMain`).
-/

namespace Rightflow

/-! ## Reading -/

/-- Whether a name is among the tokens of a text, comments aside. -/
def Mentions (source x : String) : Prop :=
  ∃ scanned, tokenize source = .ok scanned ∧ .name x ∈ forms (codeTokens scanned)

/-- The text of a program that returns an expression. -/
def returning (source : String) : String := "int main \x7b ret " ++ source ++ "\n; \x7d"

section

variable {text : List Char} {fs gs : List Form} {cautions : List Caution}

/-- A text that can be read to its end is read in the same way where another line follows. -/
theorem LongestMatch.reads_line {p : Position} {result : Except LexError (List Scanned)}
    {rest : List Char} (longestMatch : LongestMatch p text result)
    (reads : Reads rest gs cautions) :
    ∀ scanned, result = .ok scanned → ∃ fs cautions',
      forms (codeTokens scanned) = fs ++ [.finish] ∧
        Reads (text ++ '\n' :: rest) (fs ++ gs) cautions' := by
  have behind : Reads ('\n' :: rest) gs cautions := reads.blank (by decide)
  induction longestMatch with
  | finish blank =>
    rintro _ ⟨⟩
    exact ⟨[], cautions, rfl, behind.widened blank (.refl _)⟩
  | fault => rintro _ ⟨⟩
  | @lexeme p gap lexeme left form caution? result blank longest further inductionHypothesis =>
    intro scanned answered
    obtain ⟨others, rfl, rfl⟩ := exists_of_map_cons_eq_ok answered
    obtain ⟨fs, cautions', same, readsLeft⟩ := inductionHypothesis others rfl
    -- Only the last lexeme meets the new line, and no lexeme goes on with a line feed.
    have stays : Longest (lexeme ++ (left ++ '\n' :: rest)) lexeme form caution? := by
      cases left with
      | nil => exact longest.isLexeme.longest_append ⟨by decide, fun _ => rfl⟩
      | cons c left => exact longest.congr_head rfl
    have whole := (readsLeft.lexeme stays).widened blank (.refl gap)
    rw [← List.append_assoc lexeme, ← List.append_assoc gap] at whole
    by_cases comment : form = .comment
    · rw [if_pos comment] at whole
      refine ⟨fs, _, ?_, whole⟩
      rw [codeTokens_cons]
      simpa [Scanned.at, comment] using same
    · rw [if_neg comment] at whole
      refine ⟨form :: fs, _, ?_, whole⟩
      rw [codeTokens_cons]
      simpa [Scanned.at, comment, forms] using same

/-- A token with a space behind it. -/
theorem Reads.word {lexeme : List Char} {form : Form} (reads : Reads text fs cautions)
    (isLexeme : Lexeme lexeme form none) (visible : form ≠ .comment) :
    Reads (lexeme ++ ' ' :: text) (form :: fs) cautions := by
  have blank : isBlank ' ' = true := by decide
  have separates : Separates form (' ' :: text) := ⟨blank, fun comment => absurd comment visible⟩
  have whole := (reads.blank blank).lexeme (isLexeme.longest_append separates)
  rwa [if_neg visible] at whole

end

/-- What is read off the text of a program that returns an expression: the forms of the expression
between those of the program. -/
theorem reads_returning {source : String} {scanned : List Scanned}
    (success : tokenize source = .ok scanned) :
    ∃ fs cautions, forms (codeTokens scanned) = fs ++ [.finish] ∧
      Reads (returning source).toList
        (.keyword (.base .int) :: .name "main" :: .symbol .leftBrace :: .keyword .giveBack ::
          (fs ++ [.symbol .semicolon, .symbol .rightBrace, .finish])) cautions := by
  have main : Lexeme "main".toList (.name "main") none :=
    lexeme_of_word (show "main".toList = 'm' :: ['a', 'i', 'n'] from rfl) (by decide)
      (List.all_eq_true.1 (by decide)) (by decide)
  have rightBrace : Longest (Symbol.rightBrace.spelling ++ []) Symbol.rightBrace.spelling
      (.symbol .rightBrace) none := (Lexeme.symbol .rightBrace).longest_append trivial
  have closing := (reads_nil.lexeme rightBrace).word (Lexeme.symbol .semicolon) nofun
  obtain ⟨fs, cautions, split, reads⟩ :=
    (longestMatch_tokenize source).reads_line closing scanned success
  have whole := (((reads.word (Keyword.lexeme .giveBack) nofun).word (Lexeme.symbol .leftBrace)
    nofun).word main nofun).word (Keyword.lexeme (.base .int)) nofun
  have spelled : (returning source).toList = "int main \x7b ret ".toList ++
      (source.toList ++ '\n' :: "; \x7d".toList) := by
    have front : ("int main \x7b ret " ++ source).toList =
        "int main \x7b ret ".toList ++ source.toList := String.toList_append
    have back : "\n; \x7d".toList = '\n' :: "; \x7d".toList := rfl
    change (("int main \x7b ret " ++ source) ++ "\n; \x7d").toList = _
    rw [String.toList_append, front, List.append_assoc, back]
  rw [spelled]
  exact ⟨fs, cautions, split, whole⟩

/-! ## Names -/

mutual

theorem Expr.names_bare : ∀ e : Expr, e.bare.names = e.names
  | .literal _ _ | .name _ _ => rfl
  | .unary _ operand _ => operand.names_bare
  | .binary _ left right _ => congrArg₂ (· ++ ·) left.names_bare right.names_bare
  | .call callee args _ | .bind callee args _ =>
    congrArg₂ (· ++ ·) (Expr.namesAll_bareAll args) callee.names_bare

theorem Expr.namesAll_bareAll : ∀ es : List Expr, namesAll (bareAll es) = namesAll es
  | [] => rfl
  | e :: es => congrArg₂ (· ++ ·) e.names_bare (namesAll_bareAll es)

end

theorem Expr.mem_namesAll {es : List Expr} {x : String} :
    x ∈ namesAll es ↔ ∃ e ∈ es, x ∈ e.names := by
  induction es with
  | nil => simp [namesAll]
  | cons e es inductionHypothesis => simp [namesAll, inductionHypothesis]

theorem mem_commaSeparated {stretches : List (List Form)} {fs : List Form} {f : Form}
    (given : fs ∈ stretches) (member : f ∈ fs) : f ∈ commaSeparated stretches := by
  induction stretches with
  | nil => cases given
  | cons gs further inductionHypothesis =>
    cases further with
    | nil =>
      obtain rfl := List.mem_singleton.1 given
      rwa [commaSeparated_one]
    | cons hs others =>
      rw [commaSeparated_cons gs (List.cons_ne_nil hs others)]
      obtain rfl | given := List.mem_cons.1 given
      · exact List.mem_append_left _ member
      · exact List.mem_append_right _ (List.mem_cons_of_mem _ (inductionHypothesis given))

section

variable {fs : List Form} {e : Expr} {x : String}

theorem NameText.mem_of_mem_names (text : NameText fs e) (member : x ∈ e.names) :
    .name x ∈ fs := by
  cases text <;> simpa [Expr.names] using member

/-- If the names in every argument stand in its text, they stand in the list of arguments. -/
theorem mem_commaSeparated_of_mem_names {args : List (List Form × Expr)}
    (each : ∀ arg ∈ args, x ∈ arg.2.names → .name x ∈ arg.1)
    (member : x ∈ Expr.namesAll (args.map (·.2))) :
    .name x ∈ commaSeparated (args.map (·.1)) := by
  obtain ⟨_, listed, member⟩ := Expr.mem_namesAll.1 member
  obtain ⟨arg, given, rfl⟩ := List.mem_map.1 listed
  exact mem_commaSeparated (List.mem_map.2 ⟨arg, given, rfl⟩) (each arg given member)

/-- The names in an expression stand in its text. -/
theorem ExprText.mem_of_mem_names {tier : Tier} (text : ExprText tier fs e)
    (member : x ∈ e.names) : .name x ∈ fs := by
  induction text with
  | literal value => cases member
  | named text | calledName text => exact text.mem_of_mem_names member
  | operand _ inductionHypothesis | factor _ inductionHypothesis
  | parenthesized _ inductionHypothesis | called _ inductionHypothesis =>
    exact inductionHypothesis member
  | unary _ _ inductionHypothesis => exact List.mem_cons_of_mem _ (inductionHypothesis member)
  | binary _ _ _ inLeft inRight =>
    obtain member | member := List.mem_append.1 member
    · exact List.mem_append_left _ (inLeft member)
    · exact List.mem_append_right _ (List.mem_cons_of_mem _ (inRight member))
  | group _ inductionHypothesis =>
    exact List.mem_cons_of_mem _ (List.mem_append_left _ (inductionHypothesis member))
  | bind _ callee inArgs =>
    refine List.mem_cons_of_mem _ (List.mem_append.2 ?_)
    obtain member | member := List.mem_append.1 member
    · exact .inl (mem_commaSeparated_of_mem_names inArgs member)
    · have inCallee := callee.mem_of_mem_names member
      exact .inr (List.mem_cons_of_mem _ (List.mem_cons_of_mem _ inCallee))
  | call _ _ inArgs inCallee =>
    refine List.mem_cons_of_mem _ (List.mem_append.2 ?_)
    obtain member | member := List.mem_append.1 member
    · exact .inl (mem_commaSeparated_of_mem_names inArgs member)
    · exact .inr (List.mem_cons_of_mem _ (List.mem_cons_of_mem _ (inCallee member)))

end

/-! ## Parsing -/

/-- No token but the last one means the end. -/
theorem Ends.not_mem {tokens : List Token} (ends : Ends tokens) {fs : List Form}
    (split : forms tokens = fs ++ [.finish]) : .finish ∉ fs := by
  induction ends generalizing fs with
  | @finish t last =>
    cases fs with
    | nil => exact nofun
    | cons f fs => simp [forms] at split
  | @cons t rest visible further inductionHypothesis =>
    cases fs with
    | nil => exact nofun
    | cons f fs =>
      obtain ⟨rfl, others⟩ := List.cons.inj split
      exact List.not_mem_cons_of_ne_of_not_mem visible.symm (inductionHypothesis others)

/-- What the parser of whole expressions takes are the forms of the expression and the end. -/
theorem Parser.standalone_yields (n : Nat) (tokens : List Token) :
    Yields (standalone n) tokens fun fs e =>
      ∃ gs, fs = gs ++ [.finish] ∧ ExprText (.level .or) gs e.bare := by
  refine Yields.bind ((expressions_yield n).level .or tokens) fun e gs rest text => ?_
  refine Yields.expect fun position left => Yields.pure ?_
  exact ⟨gs, rfl, text⟩

/-- The forms of a text that is parsed as an expression derive the expression. -/
theorem exprText_of_parseExpression {source : String} {scanned : List Scanned} {fs : List Form}
    {q : Expr} (success : tokenize source = .ok scanned)
    (split : forms (codeTokens scanned) = fs ++ [.finish])
    (parsed : parseExpression source = .ok q) : ExprText (.level .or) fs q.bare := by
  rw [parseExpression, parseText_of_tokenize _ success] at parsed
  have read : Parser.result Parser.standalone (codeTokens scanned) = .ok q := by
    cases read : Parser.result Parser.standalone (codeTokens scanned) with
    | error halt => rw [read] at parsed; cases parsed
    | ok e => rw [read] at parsed; cases parsed; rfl
  obtain ⟨rest, run⟩ := Parser.result_eq_ok.1 read
  obtain ⟨_, taken, gs, rfl, text⟩ := Parser.standalone_yields _ _ q rest run
  -- The end stands in one place only, so that nothing is left.
  rw [split] at taken
  have none := eq_of_append_closing ((codeTokens_end success).not_mem split) taken
  rw [none, List.append_nil] at taken
  rwa [List.append_cancel_right taken]

/-- A text that is parsed as an expression is a sequence of tokens. -/
theorem tokenize_of_parseExpression {source : String} {q : Expr}
    (parsed : parseExpression source = .ok q) : ∃ scanned, tokenize source = .ok scanned := by
  cases success : tokenize source with
  | ok scanned => exact ⟨scanned, rfl⟩
  | error e =>
    rw [parseExpression, parseText, success] at parsed
    cases parsed

/-- An expression has no names that its text does not mention. -/
theorem mentions_of_mem_names {source x : String} {q : Expr}
    (parsed : parseExpression source = .ok q) (member : x ∈ q.names) : Mentions source x := by
  obtain ⟨scanned, success⟩ := tokenize_of_parseExpression parsed
  obtain ⟨fs, _, split, -⟩ := reads_returning success
  refine ⟨scanned, success, ?_⟩
  rw [split]
  rw [← Expr.names_bare] at member
  exact List.mem_append_left _
    ((exprText_of_parseExpression success split parsed).mem_of_mem_names member)

/-- The text of a program that returns an expression is parsed as that program. -/
theorem parseProgram_returning {source : String} {q : Expr}
    (parsed : parseExpression source = .ok q) :
    ∃ program warnings, parseProgram (returning source) = .ok (program, warnings) ∧
      program.bare = [⟨"main", .base .int false, [], [.giveBack q.bare .start], .start⟩] := by
  obtain ⟨scanned, success⟩ := tokenize_of_parseExpression parsed
  obtain ⟨fs, cautions, split, reads⟩ := reads_returning success
  have returned : ∀ part ∈ [(Form.keyword .giveBack :: (fs ++ [.symbol .semicolon]),
      Stmt.giveBack q.bare .start)], StmtText part.1 (.statement part.2) :=
    List.forall_mem_singleton.2 (.giveBack (exprText_of_parseExpression success split parsed))
  have main : ∀ part ∈ [(_, _)], FunctionText part.1 part.2 :=
    List.forall_mem_singleton.2 (.function (.ofBase .int) "main" .absent (.block returned))
  obtain ⟨scanned', longestMatch, sameForms, -⟩ := reads .start
  have text : ProgramText (forms (codeTokens scanned'))
      [⟨"main", .base .int false, [], [.giveBack q.bare .start], .start⟩] := by
    rw [sameForms]
    simpa using ProgramText.program main
  obtain ⟨program, read, same⟩ := parses_of_derives text
  refine ⟨program, warnings scanned', ?_, same⟩
  rw [parseProgram, parseText_of_tokenize _ (tokenize_of_longestMatch longestMatch), read]
  rfl

/-! ## Running -/

namespace Action

variable {m : Machine} {T : FunctionTable} {q : Expr}

/-- The main function of a program that returns an expression. -/
def returningMain (q : Expr) (p p' : Position) : Function :=
  ⟨"main", .base .int false, [], [.giveBack q p], p'⟩

/-- What is made of the value of the expression in the end. -/
def finish (v : Value) (p : Position) : Action Int64 := do
  let w ← attempt p (v.cast (.base .int false))
  flush p
  asCode w p

/-- A call of the main function evaluates the expression and casts its value. -/
theorem call_returningMain [Memory] (secluded : m.Secluded T) (native : T.IsNative)
    {T' : FunctionTable} (same : ∀ x ∈ q.names, T'.find? x = T.find? x) (n : Nat)
    (p p' : Position) :
    call (n + 4) (.function (returningMain q p p')) [] p' (m.amid T' m.frame m.callers) =
      Ending.onMachine
        ((do let v ← eval n q
             attempt p' (v.cast (.base .int false)) : Action Value) m)
        (Machine.amid T' m.frame m.callers) := by
  have transfers : Transfers T T' { scopes := [[]] } (m.frame :: m.callers) (eval n q) m
      Value.IsNative := (transferring native rfl n).eval q m secluded same
  have arrived : eval n q ((m.amid T' m.frame m.callers).pushFrame {}).pushScope =
      Ending.onMachine (eval n q m) (Machine.amid T' { scopes := [[]] } (m.frame :: m.callers)) :=
    transfers.commutes
  have body : execBlock (n + 3) (returningMain q p p').body
      ((m.amid T' m.frame m.callers).pushFrame {}) =
        Ending.onMachine ((do return Flow.returned (← eval n q) : Action Flow) m)
          (Machine.amid T' {} (m.frame :: m.callers)) := by
    simp only [returningMain, execBlock, inScope_run, execAll, exec, bind_run, arrived]
    cases eval n q m <;> rfl
  have arity : checkArity (returningMain q p p').name (returningMain q p p').params.length
      ([] : List Arg).length = .ok () := rfl
  have bound : bindParams p' (returningMain q p p').params [] (m.amid T' m.frame m.callers) =
      .ok [] (m.amid T' m.frame m.callers) := rfl
  simp only [call_function_run, arity, bound, body, bind_run]
  cases eval n q m with
  | error e m' => rfl
  | ok v m' =>
    change Ending.ofExcept p' _ (v.cast (.base .int false)) = Ending.onMachine (attempt p' _ m') _
    rw [attempt_run]
    cases v.cast (.base .int false) <;> rfl

/-- A program that returns an expression evaluates it and makes an exit code of its value, among the
functions that there are and the main function. -/
theorem run_returningMain [Memory] (secluded : m.Secluded T) (native : T.IsNative)
    (free : T.find? "main" = none) (foreign : "main" ∉ q.names) (n : Nat) (p p' : Position) :
    run (n + 4) [returningMain q p p'] m =
      Ending.onMachine ((do finish (← eval n q) p' : Action Int64) m)
        (Machine.amid (T.insert "main" (.function (returningMain q p p'))) m.frame m.callers) := by
  let f := returningMain q p p'
  let T' := T.insert "main" (.function f)
  have same : ∀ x ∈ q.names, T'.find? x = T.find? x := by
    intro x member
    rw [FunctionTable.find?_insert, if_neg]
    rintro rfl
    exact foreign member
  have loaded : load [f] m = .ok () (m.amid T' m.frame m.callers) := by
    have free' : m.functions.find? f.name = none := secluded.functions ▸ free
    rw [load, bind_run, define_run, free', secluded.functions]
    rfl
  have found : mainFunction (m.amid T' m.frame m.callers) =
      .ok f (m.amid T' m.frame m.callers) := by
    have main : T'.find? "main" = some (.function f) := by
      rw [FunctionTable.find?_insert, if_pos rfl]
    rw [mainFunction_run]
    simp only [Machine.amid, main]
  have begins : run (n + 4) [f] m = (do
      let v ← call (n + 4) (.function f) [] p'
      flush p'
      asCode v p' : Action Int64) (m.amid T' m.frame m.callers) := by
    rw [run, bind_run, loaded]
    dsimp only
    rw [bind_run, found]
    rfl
  -- The function casts its result before it returns, and `run` flushes behind it.
  have regrouped : (do finish (← eval n q) p' : Action Int64) = (do
      let w ← (do attempt p' ((← eval n q).cast (.base .int false)) : Action Value)
      flush p'
      asCode w p') := (bind_assoc _ _ _).symm
  rw [begins, regrouped, bind_run, bind_run, call_returningMain secluded native same n p p']
  cases (do attempt p' ((← eval n q).cast (.base .int false)) : Action Value) m with
  | error e m' => rfl
  | ok w m' =>
    exact (flush_commutesWith (Machine.unseen_amid T' m.frame m.callers) p').bind fun _ _ _ =>
      asCode_commutesWith w p'

/-- A run under a greater bound goes on as before. -/
theorem run_approximates [Memory] {n k : Nat} (le : n ≤ k) (program : Program) :
    (run n program).Approximates (run k program) m :=
  (Approximates.refl _ m).bind fun _ m₁ _ => (Approximates.refl _ m₁).bind fun f m₂ _ =>
    ((approximating le).call (.function f) [] f.position m₂).bind fun _ m₃ _ => .refl _ m₃

/-- If the sink can be flushed, all that is made of a value in the end is that it is cast. -/
theorem finish_run (flushes : m.sink.flushFails = false) (v : Value) (p : Position) :
    (∃ k, v.cast (.base .int false) = .ok (.int k) ∧ finish v p m = .ok k m) ∨
      ∃ cause, v.cast (.base .int false) = .error cause ∧
        finish v p m = .error (.fault (.located p cause)) m := by
  unfold finish
  rw [bind_run, attempt_run]
  cases given : v.cast (.base .int false) with
  | error cause => exact .inr ⟨cause, rfl, rfl⟩
  | ok w =>
    obtain ⟨k, rfl⟩ := Value.exists_int_of_hasType (Value.hasType_of_cast given)
    refine .inl ⟨k, rfl, ?_⟩
    simp only [Ending.ofExcept]
    rw [bind_run, flush_run, flushes]
    rfl

end Action

/-! ## Texts -/

/-- What a text that is an expression does on a machine: its value or its error, and the machine
that is left. -/
def Machine.evalText [Host] (m : Machine) (n : Nat) (source : String) :
    Except (Halt Error) Value × Machine :=
  match parseExpression source with
  | .ok e => m.perform (Action.eval n e)
  | .error halt => (.error halt, m)

/-- A text is evaluated on the machine that knows the native functions. -/
theorem evalText_eq [Memory] (source : String) :
    evalText source = (Machine.standard.evalText bound source).1 := by
  unfold evalText Machine.evalText
  cases parseExpression source with
  | ok e => rfl
  | error halt => rfl

/-- What an evaluation and a run have come to is the same: the same has been written, the exit code
is the value cast to an integer, and without a value there is none, for the same cause.  A value
that cannot be cast makes the run fail. -/
structure Agree (evaluated : Except (Halt Error) Value × Machine)
    (ran : Except (Halt Error) Int64 × Machine) : Prop where
  output : ran.2.sink = evaluated.2.sink
  code : ∀ k, ran.1 = .ok k ↔
    ∃ v, evaluated.1 = .ok v ∧ v.cast (.base .int false) = .ok (.int k)
  failure : ∀ halt, evaluated.1 = .error halt → ∃ halt', ran.1 = .error halt' ∧
    halt'.map (Error.relocate Position.erase) = halt.map (Error.relocate Position.erase)
  refusal : ∀ v cause, evaluated.1 = .ok v → v.cast (.base .int false) = .error cause →
    ∃ p, ran.1 = .error (.fault (.runtime (.located p cause)))

/-- An error that differs from another one in its position only. -/
theorem exists_located_of_erased {halt : Halt Error} {p : Position} {cause : Cause}
    (same : halt.map (Error.relocate Position.erase) =
      .fault (.runtime (.located p cause))) :
    ∃ p', halt = .fault (.runtime (.located p' cause)) := by
  cases halt with
  | exhausted => cases same
  | fault e =>
    cases e with
    | lexical e => cases same
    | grammatical e => cases same
    | runtime e =>
      cases e with
      | missingMain => cases same
      | located p' cause' =>
        cases same
        exact ⟨p', rfl⟩

/-- Where the errors of a program stand does not matter to that. -/
theorem Agree.of_erased {evaluated : Except (Halt Error) Value × Machine}
    {ran ran' : Except (Halt Error) Int64 × Machine} (agree : Agree evaluated ran)
    (outcome : relocateOutcome Position.erase id ran'.1 = relocateOutcome Position.erase id ran.1)
    (sink : ran'.2.sink = ran.2.sink) : Agree evaluated ran' where
  output := sink.trans agree.output
  code k := by
    rw [← agree.code]
    obtain ⟨a', a, given', given, rfl⟩ | ⟨_, _, failed', failed, _⟩ := relocateOutcome_cases outcome
    · rw [given', given]
      rfl
    · rw [failed', failed]
      exact ⟨nofun, nofun⟩
  failure halt failed := by
    obtain ⟨halt₁, failed₁, same⟩ := agree.failure halt failed
    obtain ⟨_, _, _, given, _⟩ | ⟨halt', _, failed', failed₁', same'⟩ :=
      relocateOutcome_cases outcome
    · rw [failed₁] at given
      cases given
    · rw [failed₁] at failed₁'
      cases failed₁'
      exact ⟨halt', failed', same'.trans same⟩
  refusal v cause given refused := by
    obtain ⟨p, failed⟩ := agree.refusal v cause given refused
    obtain ⟨_, _, _, given', _⟩ | ⟨halt', _, failed', failed₁, same⟩ :=
      relocateOutcome_cases outcome
    · rw [failed] at given'
      cases given'
    · rw [failed] at failed₁
      cases failed₁
      obtain ⟨p', rfl⟩ := exists_located_of_erased same
      exact ⟨p', failed'⟩

/-- Either both have reached their bounds or neither has. -/
theorem Agree.exhausted_iff {evaluated : Except (Halt Error) Value × Machine}
    {ran : Except (Halt Error) Int64 × Machine} (agree : Agree evaluated ran) :
    ran.1 = .error .exhausted ↔ evaluated.1 = .error .exhausted := by
  cases outcome : evaluated.1 with
  | error halt =>
    obtain ⟨halt', failed, same⟩ := agree.failure halt outcome
    rw [failed]
    cases halt <;> cases halt' <;> simp [Halt.map] at same ⊢
  | ok v =>
    cases given : v.cast (.base .int false) with
    | ok w =>
      obtain ⟨k, rfl⟩ := Value.exists_int_of_hasType (Value.hasType_of_cast given)
      rw [(agree.code k).mpr ⟨v, outcome, given⟩]
      exact ⟨nofun, nofun⟩
    | error cause =>
      obtain ⟨p, failed⟩ := agree.refusal v cause outcome given
      rw [failed]
      exact ⟨nofun, nofun⟩

namespace Machine

variable {α : Type} {m : Machine} {action greater : Action α}

theorem perform_eq_exhausted_iff :
    (m.perform action).1 = .error .exhausted ↔ action.Exhausts m := by
  unfold perform Action.Exhausts
  cases action m with
  | ok x m' => exact ⟨nofun, nofun⟩
  | error e m' => cases e <;> simp [Halt.map]

theorem perform_of_approximates (approximates : action.Approximates greater m)
    (ends : (m.perform action).1 ≠ .error .exhausted) : m.perform greater = m.perform action := by
  have same := approximates fun exhausts => ends (perform_eq_exhausted_iff.mpr exhausts)
  unfold perform
  rw [same]

end Machine

theorem FunctionTable.IsNative.insert {T : FunctionTable} (native : T.IsNative) (x : String)
    {c : Callable} (added : c.IsNative) : (T.insert x c).IsNative := by
  intro y d found
  rw [find?_insert] at found
  split at found
  · cases found
    exact added
  · exact native y d found

/-- A new machine knows native functions only. -/
theorem Machine.isNative_standard (sink : Sink) :
    (Machine.ofBuiltins Builtin.standard sink).functions.IsNative := by
  have empty : FunctionTable.IsNative {} := nofun
  have stdout : Builtin.stdout ∈ Builtin.standard := List.mem_cons_self
  have increment : Builtin.increment ∈ Builtin.standard :=
    List.mem_cons_of_mem _ List.mem_cons_self
  exact (empty.insert _ (.builtin 0 stdout)).insert _ (.builtin 1 increment)

/-- An evaluation and a run of a program that returns the expression come to the same. -/
theorem agree_returningMain [Memory] {m : Machine} {T : FunctionTable} {q : Expr}
    (secluded : m.Secluded T) (native : T.IsNative) (free : T.find? "main" = none)
    (foreign : "main" ∉ q.names)
    (flushes : m.sink.flushFails = false) (n : Nat) (p p' : Position) :
    Agree (m.perform (Action.eval n q))
      (m.perform (Action.run (n + 4) [Action.returningMain q p p'])) := by
  have kept : Action.Leads (m.Keeps .closed) (Action.eval n q) m _ :=
    (surroundings.lawful n).eval q m trivial
  unfold Machine.perform
  rw [Action.run_returningMain secluded native free foreign, Action.bind_run]
  cases ending : Action.eval n q m with
  | error e m' =>
    change Agree (.error (e.map .runtime), m') (.error (e.map .runtime), _)
    refine ⟨rfl, fun k => ⟨nofun, fun ⟨v, given, _⟩ => nomatch given⟩, ?_, ?_⟩
    · rintro _ ⟨⟩
      exact ⟨_, rfl, rfl⟩
    · rintro _ _ ⟨⟩
  | ok v m' =>
    obtain ⟨text, sink⟩ := (kept.ok ending).1.sink
    have flushes' : m'.sink.flushFails = false := by rw [sink, flushes]
    dsimp only
    -- The program has an exit code exactly if the value of the expression can be cast to one.
    obtain ⟨k, cast, finished⟩ | ⟨cause, cast, finished⟩ := Action.finish_run flushes' v p'
    · rw [finished]
      change Agree (.ok v, m') (.ok k, _)
      refine ⟨rfl, fun k' => ⟨?_, ?_⟩, ?_, ?_⟩
      · rintro ⟨⟩
        exact ⟨v, rfl, cast⟩
      · rintro ⟨_, ⟨⟩, cast'⟩
        rw [cast] at cast'
        cases cast'
        rfl
      · rintro _ ⟨⟩
      · rintro _ cause ⟨⟩ refused
        rw [cast] at refused
        cases refused
    · rw [finished]
      change Agree (.ok v, m') (.error (.fault (.runtime (.located p' cause))), _)
      refine ⟨rfl, fun k' => ⟨?_, ?_⟩, ?_, ?_⟩
      · rintro ⟨⟩
      · rintro ⟨_, ⟨⟩, cast'⟩
        rw [cast] at cast'
        cases cast'
      · rintro _ ⟨⟩
      · rintro _ _ ⟨⟩ refused
        rw [cast] at refused
        cases refused
        exact ⟨p', rfl⟩

/-- A text that is an expression and does not mention `main` can be evaluated, or be put into a
program whose main function returns it.  Either both come to an end or neither does; and then the
same is written, the program gives an exit code exactly if it is the value of the expression, cast
to an integer, and if the evaluation fails, the program fails for the same cause. -/
theorem expressions_are_their_programs [Memory] {source : String} {q : Expr} {sink : Sink}
    (parsed : parseExpression source = .ok q) (silent : ¬ Mentions source "main")
    (flushes : sink.flushFails = false) :
    let m := Machine.ofBuiltins Builtin.standard sink
    let evaluated n := m.evalText n source
    let ran n := m.runText n (returning source)
    (∀ n, (ran (n + 4)).1 = .error .exhausted ↔ (evaluated n).1 = .error .exhausted) ∧
    ∀ n k, (evaluated n).1 ≠ .error .exhausted → (ran k).1 ≠ .error .exhausted →
      Agree (evaluated n) (ran k) := by
  intro m evaluated ran
  obtain ⟨program, warnings, read, bare⟩ := parseProgram_returning parsed
  have evaluates (n : Nat) : evaluated n = m.perform (Action.eval n q) := by
    simp only [evaluated, Machine.evalText, parsed]
  have runs (n : Nat) : ran n = m.perform (Action.run n program) := by
    simp only [ran, Machine.runText, read]
  have secluded : m.Secluded m.functions := ⟨rfl, rfl⟩
  have native : m.functions.IsNative := Machine.isNative_standard sink
  have free : m.functions.find? "main" = none := rfl
  have foreign : "main" ∉ q.names := fun member => silent (mentions_of_mem_names parsed member)
  have same : program.relocate Position.erase =
      Program.relocate Position.erase [Action.returningMain q .start .start] := by
    rw [Program.relocate_erase, Program.relocate_erase, bare]
    rfl
  have agree (n : Nat) : Agree (evaluated n) (ran (n + 4)) := by
    obtain ⟨outcome, written⟩ := perform_run_of_erased (n + 4) m same
    rw [evaluates, runs]
    exact (agree_returningMain secluded native free foreign flushes n .start .start).of_erased
      outcome written
  refine ⟨fun n => (agree n).exhausted_iff, fun n k evaluatedEnds ranEnds => ?_⟩
  -- What has come to an end stays under a bound that is great enough for both.
  have sameValue : evaluated (max n k) = evaluated n := by
    rw [evaluates] at evaluatedEnds
    rw [evaluates, evaluates]
    have approximates := (Action.approximating (Nat.le_max_left n k)).eval q m
    exact Machine.perform_of_approximates approximates evaluatedEnds
  have sameCode : ran (max n k + 4) = ran k := by
    rw [runs] at ranEnds
    rw [runs, runs]
    have le : k ≤ max n k + 4 := Nat.le_trans (Nat.le_max_right n k) (Nat.le_add_right _ 4)
    exact Machine.perform_of_approximates (Action.run_approximates le program) ranEnds
  rw [← sameValue, ← sameCode]
  exact agree (max n k)

/-- The text `1 + 2 // main` has `main` in a comment only, and the program that returns it ends with
the exit code 3, as its value says. -/
theorem sum_is_returned :
    (∃ q, parseExpression "1 + 2 // main" = .ok q) ∧ ¬ Mentions "1 + 2 // main" "main" ∧
    (Machine.standard.runText 13 (returning "1 + 2 // main")).1 = .ok 3 ∧
    ∃ v, (Machine.standard.evalText 9 "1 + 2 // main").1 = .ok v ∧
      v.cast (.base .int false) = .ok (.int 3) := by
  have reads : (parseExpression "1 + 2 // main").isOk = true := by decide +kernel
  have code : (Machine.standard.runText 13 (returning "1 + 2 // main")).1 = .ok 3 := by
    decide +kernel
  obtain ⟨q, parsed⟩ : ∃ q, parseExpression "1 + 2 // main" = .ok q := by
    cases outcome : parseExpression "1 + 2 // main" with
    | ok q => exact ⟨q, rfl⟩
    | error halt => rw [outcome] at reads; cases reads
  have silent : ¬ Mentions "1 + 2 // main" "main" := by
    have absent : (tokenize "1 + 2 // main").toOption.all
        (fun scanned => .name "main" ∉ forms (codeTokens scanned)) = true := by decide +kernel
    rintro ⟨scanned, success, member⟩
    rw [success] at absent
    exact of_decide_eq_true absent member
  have flushes : ({} : Sink).flushFails = false := rfl
  obtain ⟨ends, agree⟩ := expressions_are_their_programs parsed silent flushes
  have ranEnds : (Machine.standard.runText 13 (returning "1 + 2 // main")).1 ≠
      .error .exhausted := by
    rw [code]
    exact nofun
  have agreed := agree 9 13 (fun exhausted => ranEnds ((ends 9).mpr exhausted)) ranEnds
  exact ⟨⟨q, parsed⟩, silent, code, (agreed.code 3).mp code⟩

end Rightflow
