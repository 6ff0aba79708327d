import Rightflow.Proofs.LocatedTrees

/-!
# What the parsers take

Each of the parsers takes the text of its answer, which is located there, and looks at no more than
the class of the token behind it.  As no text but that of missing branches or parameters is empty,
this also says which parsers take a token.
-/

namespace Rightflow.Parser

variable {tokens : List Token}

/-! ## Types -/

theorem mutableBase_takes (tokens : List Token) : Takes mutableBase tokens fun ts _ => ts ≠ [] := by
  refine .next fun t rest _ => ?_
  split
  · exact .unexpected t _
  · exact .unexpected t _
  · exact .pure (by simp)

theorem plainBase_takes (tokens : List Token) : Takes plainBase tokens fun ts _ => ts ≠ [] := by
  refine .next fun t rest _ => ?_
  split
  · exact .pure (by simp)
  · exact .unexpected t _

/-- What the parsers of types with one bound take. -/
structure TypesTake (n : Nat) : Prop where
  type : ∀ tokens, Takes (type n) tokens fun ts _ => ts ≠ []
  signature : ∀ tokens, Takes (signature n) tokens fun ts _ => ts ≠ []
  paramType : ∀ tokens, Takes (paramType n) tokens fun ts _ => ts ≠ []

theorem types_take (n : Nat) : TypesTake n := by
  induction n with
  | zero => constructor <;> exact fun _ => .exhausted
  | succ n inductionHypothesis =>
    obtain ⟨type, signature, paramType⟩ := inductionHypothesis
    constructor
    case type =>
      refine fun tokens => .peek (fun _ _ => id) ?_
      split
      · exact (signature tokens).bind fun s ts rest nonempty => .pure (by simpa using nonempty)
      · exact .next fun t rest _ => (mutableBase_takes rest).mono fun _ _ _ => by simp
      · exact plainBase_takes tokens
    case signature =>
      refine fun tokens => .expect fun o rest _ => (type rest).bind fun ret _ rest _ => ?_
      refine .expect fun s rest _ => (list_takes n paramType rest).bind fun params _ _ _ => ?_
      exact .pure (by simp)
    case paramType =>
      refine fun tokens => .peekToken? (fun _ _ => id) ?_
      split
      · split
        · exact .unexpected _ _
        · exact type tokens
      · exact type tokens

/-! ## Expressions -/

theorem decorated_takes (tokens : List Token) : Takes decorated tokens NameAt := by
  refine .identifier fun t x rest named => .accept (fun a rest decorates => ?_) ?_
  · refine .identifier fun u y rest named' => .pure ?_
    have located := NameAt.decorated named decorates named'
    rwa [leadPosition_name named, leadPosition_name named, leadPosition_name named'] at located
  · have located := NameAt.name named
    rw [leadPosition_name named] at located
    exact .pure located

theorem ungroup_takes (position : Position) (args : List Expr) (tokens : List Token) :
    Takes (ungroup position args) tokens fun ts e => ts = [] ∧ args = [e] := by
  unfold ungroup
  split
  next e => exact .pure ⟨rfl, rfl⟩
  next => exact .fail _ _

/-- What the parsers of expressions with one bound take.  Operators go on with what has been taken
before them. -/
structure ExpressionsTake (n : Nat) : Prop where
  level : ∀ l tokens, Takes (level n l) tokens (ExprAt (.level l))
  operand : ∀ l tokens, Takes (operand n l) tokens (ExprAt l.operands)
  further : ∀ l left before tokens, ExprAt l.leading before left →
    Takes (furtherOperands n l left) tokens fun ts e => ExprAt (.level l) (before ++ ts) e
  unary : ∀ tokens, Takes (unary n) tokens (ExprAt .unary)
  factor : ∀ tokens, Takes (factor n) tokens (ExprAt .factor)
  callOrGroup : ∀ tokens, Takes (callOrGroup n) tokens (ExprAt .parenthesized)
  callee : ∀ tokens, Takes (callee n) tokens (ExprAt .callee)

section

variable {n : Nat} (ih : ExpressionsTake n)

include ih

theorem level_succ_takes (l : Level) (tokens : List Token) :
    Takes (level (n + 1) l) tokens (ExprAt (.level l)) := by
  refine (ih.operand l tokens).bind fun left before rest first => ?_
  exact ih.further l left before rest first.leading

theorem operand_succ_takes (l : Level) (tokens : List Token) :
    Takes (operand (n + 1) l) tokens (ExprAt l.operands) := by
  cases l with
  | or => exact ih.level .and tokens
  | and => exact ih.level .comparison tokens
  | comparison => exact ih.level .additive tokens
  | additive => exact ih.level .multiplicative tokens
  | multiplicative => exact ih.unary tokens

theorem furtherOperands_succ_takes (l : Level) (left : Expr) (before : List Token)
    (tokens : List Token) (first : ExprAt l.leading before left) :
    Takes (furtherOperands (n + 1) l left) tokens fun ts e =>
      ExprAt (.level l) (before ++ ts) e := by
  refine .peekClass (fun _ => by rfl) (fun _ => by rfl) ?_
  split
  next => exact .pure (by simpa using first.of_leading)
  next op isOperator =>
    refine .next ?_
    rintro t rest rfl
    obtain ⟨s, spelled, operator⟩ := Level.op?_eq_some.1 isOperator
    refine (ih.operand l rest).bind fun right ts rest' second => ?_
    have goes : (ahead (forms (t :: ts))).givesList = false := by
      rw [forms_cons, ahead_cons, show t.form = .symbol s from spelled]
      exact Level.givesList_eq_false operator
    have begins := (first.lead (t :: ts) goes).symm
    have whole : ExprAt (.level l) (before ++ t :: ts) (.binary op left right left.position) := by
      rw [begins]
      exact .binary operator spelled first second begins
    -- A chain goes on with the whole as its left operand; a comparison stands alone.
    split
    next chains =>
      have next := ih.further l _ _ rest' (by rw [Level.leading, if_pos chains]; exact whole)
      simpa using next
    next => exact .pure (by simpa using whole)

theorem unary_succ_takes (tokens : List Token) :
    Takes (unary (n + 1)) tokens (ExprAt .unary) := by
  refine .peek (fun _ _ located => located.ne_nil) ?_
  split
  next => exact (ih.factor tokens).mono fun ts e => .factor
  next op isOperator =>
    refine .next ?_
    rintro t rest rfl
    obtain ⟨s, spelled, operator⟩ := Form.unaryOp?_eq_some.1 isOperator
    refine (ih.unary rest).bind fun e ts _ text => .pure ?_
    rw [List.append_nil, ← leadPosition_unary operator spelled ts]
    exact .unary operator spelled text

theorem factor_succ_takes (tokens : List Token) :
    Takes (factor (n + 1)) tokens (ExprAt .factor) := by
  refine .peek (fun _ _ located => located.ne_nil) ?_
  split
  next value isLiteral =>
    refine .next ?_
    rintro t rest rfl
    have spelled : t.form = .literal value := isLiteral
    rw [← leadPosition_literal spelled []]
    exact .pure (.literal spelled)
  next => exact (decorated_takes tokens).mono fun _ _ => .named
  next => exact (ih.callOrGroup tokens).mono fun _ _ => .parenthesized
  next => exact .next fun t rest _ => .fail _ _

theorem callOrGroup_succ_takes (tokens : List Token) :
    Takes (callOrGroup (n + 1)) tokens (ExprAt .parenthesized) := by
  refine .expect fun o rest opens => ?_
  refine (list_takes n (ih.level .or) rest).bind fun args taken rest' found => ?_
  obtain ⟨parts, ts, c, given, between, closes, rfl, rfl⟩ := found
  have inner := arguments_balanced given between
  refine .accept (fun b rest'' binds => ?_) (.accept (fun b rest'' calls => ?_) ?_)
  · refine (decorated_takes rest'').bind fun callee us _ text => .pure ?_
    have gives : b.form.givesList = true := by rw [binds]; rfl
    rw [← leadPosition_list inner closes gives us]
    simpa using ExprAt.bind opens given between closes binds text
  · refine (ih.callee rest'').bind fun callee us _ text => .pure ?_
    have gives : b.form.givesList = true := by rw [calls]; rfl
    rw [← leadPosition_list inner closes gives us]
    simpa using ExprAt.call opens given between closes calls text
  · refine (ungroup_takes o.position (parts.map (·.2)) rest').mono ?_
    rintro _ e ⟨rfl, single⟩
    obtain ⟨part, rfl, rfl⟩ := List.map_eq_singleton_iff.1 single
    cases between with
    | one =>
      rw [List.append_nil]
      exact .group opens (given part (by simp)) closes
    | cons separates nonempty further => exact absurd rfl nonempty

theorem callee_succ_takes (tokens : List Token) :
    Takes (callee (n + 1)) tokens (ExprAt .callee) := by
  refine .peek (fun _ _ located => located.ne_nil) ?_
  split
  · exact (ih.callOrGroup tokens).mono fun _ _ => .called
  · exact (decorated_takes tokens).mono fun _ _ => .calledName

end

theorem expressions_take (n : Nat) : ExpressionsTake n := by
  induction n with
  | zero =>
    exact ⟨fun _ _ => .exhausted, fun _ _ => .exhausted, fun _ _ _ _ _ => .exhausted,
      fun _ => .exhausted, fun _ => .exhausted, fun _ => .exhausted, fun _ => .exhausted⟩
  | succ n ih =>
    exact ⟨level_succ_takes ih, operand_succ_takes ih, furtherOperands_succ_takes ih,
      unary_succ_takes ih, factor_succ_takes ih, callOrGroup_succ_takes ih, callee_succ_takes ih⟩

theorem expression_takes (n : Nat) (tokens : List Token) :
    Takes (expression n) tokens (ExprAt (.level .or)) :=
  (expressions_take n).level .or tokens

/-! ## Statements -/

theorem condition_takes (n : Nat) (tokens : List Token) :
    Takes (condition n) tokens ConditionAt := by
  refine .expect fun o rest opens => (expression_takes n rest).bind fun e ts rest text => ?_
  exact .expect fun c _ closes => .pure (.parentheses opens text closes)

theorem assignmentTail_takes (n : Nat) (value : Expr) (position : Position) (tokens : List Token) :
    Takes (assignmentTail n value position) tokens fun ts a =>
      a.position = position ∧ a.value = value ∧ TargetText (forms ts) a.declared? a.name := by
  have takes : Takes (assignmentTail n value position) tokens fun _ a => a.position = position := by
    refine .expect fun s rest _ => .peekClass (fun _ => by rfl) (fun _ => by rfl) ?_
    split
    · rw [map_eq_pure_bind, bind_assoc]
      refine ((types_take n).type rest).bind fun t _ rest _ => ?_
      exact .identifier fun u x rest _ => .expect fun _ _ _ => .pure rfl
    · exact .identifier fun u x rest _ => .expect fun _ _ _ => .pure rfl
  exact takes.and_yields (assignmentTail_yields n value position tokens)

/-- What begins with an expression is an assignment, or it goes on in another way. -/
theorem assignmentOr_takes {α : Type} {n : Nat} {answer : Assignment → α}
    {k : Position → Expr → Parser α} {Q : List Token → α → Prop} (tokens : List Token)
    (assigned : ∀ ts a, AssignAt ts a → Q ts (answer a))
    (other : ∀ position ts e rest, ExprAt (.level .or) ts e →
      Takes (k position e) rest fun us b => firstPosition (ts ++ us) = position → Q (ts ++ us) b) :
    Takes (do
      let position ← peekPosition
      let e ← expression n
      if (← peek) = .symbol .assign then return answer (← assignmentTail n e position)
      else k position e) tokens Q := by
  refine .peekPosition fun position => ?_
  refine (expression_takes n tokens).bind fun e ts rest text => ?_
  have nonempty (us : List Token) : ts ++ us ≠ [] :=
    List.append_ne_nil_of_left_ne_nil text.ne_nil us
  refine .peekClass (fun _ => by rfl) (fun _ => by rfl) ?_
  split
  next =>
    refine (assignmentTail_takes n e position rest).bind fun a us _ found => .pure ⟨?_, ?_⟩
    · exact nonempty _
    · obtain ⟨rfl, rfl, target⟩ := found
      rw [List.append_nil]
      intro first
      have located := AssignAt.assign text target
      rw [first] at located
      exact assigned _ a located
  next =>
    exact (other position ts e rest text).mono fun us b holds => ⟨nonempty us, holds⟩

theorem iterator_takes (n : Nat) (tokens : List Token) :
    Takes (iterator n) tokens IteratorAt := by
  refine assignmentOr_takes tokens (fun ts a => .assign) fun position ts e rest text => ?_
  refine .next fun t _ _ => ?_
  split
  next x p =>
    split
    next ends =>
      refine .pure fun _ => ?_
      have lead := text.lead [t] (by simp [ends, Form.givesList])
      have located := IteratorAt.existing text ends
      rwa [lead] at located
    next => exact .unexpected t _
  next => exact .unexpected t _

theorem assignOrRun_takes (n : Nat) (tokens : List Token) :
    Takes (assignOrRun n) tokens fun ts s => StmtAt ts (.statement s) := by
  refine assignmentOr_takes tokens (fun ts a => .assign) fun position ts e rest text => ?_
  refine .next fun t _ _ => ?_
  split
  next ends =>
    refine .pure fun first => ?_
    rw [← first]
    exact .run text ends
  next => exact .unexpected t _

theorem giveBack_takes (n : Nat) (tokens : List Token) :
    Takes (giveBack n) tokens fun ts s => StmtAt ts (.statement s) := by
  refine .expect fun k rest keyword => (expression_takes n rest).bind fun e ts rest text => ?_
  exact .expect fun s _ ends => .pure (.giveBack keyword text ends)

/-- What the parsers of statements with one bound take. -/
structure StatementsTake (n : Nat) : Prop where
  statement : ∀ tokens, Takes (statement n) tokens fun ts s => StmtAt ts (.statement s)
  otherwise : ∀ tokens, Takes (otherwise n) tokens fun ts o => StmtAt ts (.otherwise o)
  block : ∀ tokens, Takes (block n) tokens fun ts body => StmtAt ts (.block body)
  statements : ∀ tokens, Takes (statements n) tokens fun ts body =>
    ∃ parts : List (List Token × Stmt), (∀ part ∈ parts, StmtAt part.1 (.statement part.2)) ∧
      ts = (parts.map (·.1)).flatten ∧ body = parts.map (·.2)

section

variable {n : Nat} (ih : StatementsTake n)

include ih

/-- A condition, a block and the branches behind it. -/
theorem conditional_takes {α : Type} {answer : Expr → Block → Otherwise → α}
    {Q : List Token → α → Prop} (tokens : List Token)
    (located : ∀ cs bs os cond body further, ConditionAt cs cond → StmtAt bs (.block body) →
      StmtAt os (.otherwise further) → Q (cs ++ (bs ++ os)) (answer cond body further)) :
    Takes (do
      let cond ← condition n
      let body ← block n
      return answer cond body (← otherwise n)) tokens Q := by
  refine (condition_takes n tokens).bind fun cond cs rest condition => ?_
  refine (ih.block rest).bind fun body bs rest block => ?_
  refine (ih.otherwise rest).bind fun further os _ branches => .pure ?_
  rw [List.append_nil]
  exact located cs bs os cond body further condition block branches

theorem statement_succ_takes (tokens : List Token) :
    Takes (statement (n + 1)) tokens fun ts s => StmtAt ts (.statement s) := by
  refine .peek (fun _ _ located => located.ne_nil) ?_
  split
  next =>
    refine .expect fun k rest keyword => conditional_takes ih rest ?_
    intro cs bs os cond body further condition block branches
    exact .branch keyword condition block branches
  next =>
    refine .expect fun k rest keyword => ?_
    refine (condition_takes n rest).bind fun cond cs rest condition => ?_
    refine (ih.block rest).bind fun body bs _ block => .pure ?_
    rw [List.append_nil]
    exact .whileLoop keyword condition block
  next =>
    refine .expect fun k rest keyword => .expect fun o rest opens => ?_
    refine (iterator_takes n rest).bind fun iter hs rest header => ?_
    refine (expression_takes n rest).bind fun cond cs rest condition => ?_
    refine .expect fun c rest closes => (ih.block rest).bind fun body bs rest block => ?_
    refine .expect fun a rest calls => ?_
    refine ((expressions_take n).callee rest).bind fun onIter us rest callee => ?_
    exact .expect fun s _ ends =>
      .pure (.forLoop keyword opens header condition closes block calls callee ends)
  next => exact giveBack_takes n tokens
  next => exact assignOrRun_takes n tokens

theorem otherwise_succ_takes (tokens : List Token) :
    Takes (otherwise (n + 1)) tokens fun ts o => StmtAt ts (.otherwise o) := by
  refine .peekClass (fun _ => by rfl) (fun _ => by rfl) ?_
  split
  next =>
    refine .expect fun k rest keyword => conditional_takes ih rest ?_
    intro cs bs os cond body further condition block branches
    exact .elif keyword condition block branches
  next =>
    refine .expect fun k rest keyword => (ih.block rest).bind fun body bs _ block => .pure ?_
    rw [List.append_nil]
    exact .otherwise keyword block
  next => exact .pure .nothing

theorem block_succ_takes (tokens : List Token) :
    Takes (block (n + 1)) tokens fun ts body => StmtAt ts (.block body) := by
  refine .expect fun o rest opens => (ih.statements rest).bind fun body taken rest found => ?_
  obtain ⟨parts, statements, rfl, rfl⟩ := found
  exact .expect fun c _ closes => .pure (.block opens statements closes)

theorem statements_succ_takes (tokens : List Token) :
    Takes (statements (n + 1)) tokens fun ts body =>
      ∃ parts : List (List Token × Stmt), (∀ part ∈ parts, StmtAt part.1 (.statement part.2)) ∧
        ts = (parts.map (·.1)).flatten ∧ body = parts.map (·.2) := by
  refine .peekClass (fun _ => by rfl) (fun _ => by rfl) ?_
  split
  next => exact .pure ⟨[], by simp, rfl, rfl⟩
  next => exact .pure ⟨[], by simp, rfl, rfl⟩
  next =>
    refine (ih.statement tokens).bind fun s ts rest located => ?_
    refine (ih.statements rest).bind fun body taken _ found => .pure ?_
    obtain ⟨parts, statements, rfl, rfl⟩ := found
    refine ⟨(ts, s) :: parts, ?_, by simp, by simp⟩
    simpa using ⟨located, by simpa using statements⟩

end

theorem statements_take (n : Nat) : StatementsTake n := by
  induction n with
  | zero =>
    exact ⟨fun _ => .exhausted, fun _ => .exhausted, fun _ => .exhausted, fun _ => .exhausted⟩
  | succ n ih =>
    exact ⟨statement_succ_takes ih, otherwise_succ_takes ih, block_succ_takes ih,
      statements_succ_takes ih⟩

/-! ## Programs -/

theorem param_takes (n : Nat) (tokens : List Token) :
    Takes (param n) tokens fun ts _ => ts ≠ [] := by
  refine .peekPosition fun position => ((types_take n).type tokens).bind fun t ts rest _ => ?_
  refine .identifier fun u x rest _ => ?_
  dsimp only
  split
  · exact .fail _ _
  · exact .pure (by simp)

theorem params_take (n : Nat) (tokens : List Token) :
    Takes (params n) tokens fun ts _ => ts ≠ [] := by
  induction n generalizing tokens with
  | zero => exact .exhausted
  | succ n ih =>
    refine (param_takes n tokens).bind fun p ts rest nonempty => ?_
    refine .accept (fun t rest _ => (ih rest).bind fun ps us _ _ => .pure (by simp)) ?_
    exact .pure (by simpa using nonempty)

theorem paramList_takes (n : Nat) (tokens : List Token) :
    Takes (paramList n) tokens fun ts ps => ParametersText (forms ts) ps := by
  have takes : Takes (paramList n) tokens fun _ _ => True := by
    refine .accept (fun t rest _ => .peekClass (fun _ => by rfl) (fun _ => by rfl) ?_)
      (.pure trivial)
    split
    · exact .pure trivial
    · exact (params_take n rest).mono fun _ _ _ => trivial
  exact (takes.and_yields (paramList_yields n tokens)).mono fun _ _ found => found.2

theorem function_takes (n : Nat) (tokens : List Token) : Takes (function n) tokens FunctionAt := by
  refine .peekPosition fun position => ?_
  refine (((types_take n).type tokens).and_yields ((types_yield n).type tokens)).bind ?_
  rintro ret ts rest ⟨-, returned⟩
  refine .identifier fun u x rest named => (paramList_takes n rest).bind ?_
  intro params ps rest parameters
  refine ((statements_take n).block rest).bind fun body bs _ block => .pure ⟨by simp, ?_⟩
  rw [List.append_nil]
  rintro rfl
  exact .function returned named parameters block

theorem functions_take (n : Nat) (tokens : List Token) :
    Takes (functions n) tokens fun ts p => ∃ parts : List (List Token × Function),
      (∀ part ∈ parts, FunctionAt part.1 part.2) ∧
      ts = (parts.map (·.1)).flatten ∧ p = parts.map (·.2) := by
  induction n generalizing tokens with
  | zero => exact .exhausted
  | succ n ih =>
    refine .peekClass (fun _ => by rfl) (fun _ => by rfl) ?_
    split
    next => exact .pure ⟨[], by simp, rfl, rfl⟩
    next =>
      refine (function_takes n tokens).bind fun f ts rest located => ?_
      refine (ih rest).bind fun p taken _ found => .pure ?_
      obtain ⟨parts, functions, rfl, rfl⟩ := found
      refine ⟨(ts, f) :: parts, ?_, by simp, by simp⟩
      simpa using ⟨located, by simpa using functions⟩

theorem program_takes (n : Nat) (tokens : List Token) : Takes (program n) tokens ProgramAt := by
  refine (functions_take n tokens).bind fun p taken rest found => ?_
  obtain ⟨parts, functions, rfl, rfl⟩ := found
  exact .expect fun last _ ends => .pure (.program functions ends)

end Rightflow.Parser
