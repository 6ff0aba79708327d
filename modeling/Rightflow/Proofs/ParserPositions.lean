import Rightflow.Proofs.Parsing
import Rightflow.Proofs.Relocation
import Rightflow.Proofs.Tokenizing

/-!
# Parsers hand positions on

A parser decides by the forms of its tokens and copies their positions.  So on tokens that have been
moved it does what it does on those where they were, and its answer or its error is moved with them:
`program_relocates` and `standalone_relocates` state it of the two parsers of whole texts.

The tokens of a text end in the one token that means the end (`codeTokens_end`), and a parser takes
that one only where it stops.  So it never looks behind it, and never reports that there are no
tokens left.
-/

namespace Rightflow

/-- A list of tokens of which the last one, and no other, means the end. -/
inductive Ends : List Token → Prop
  | finish {t : Token} (last : t.form = .finish) : Ends [t]
  | cons {t : Token} {rest : List Token} (visible : t.form ≠ .finish) (further : Ends rest) :
      Ends (t :: rest)

theorem Ends.exists_cons {tokens : List Token} (ends : Ends tokens) :
    ∃ t rest, tokens = t :: rest := by
  cases ends <;> exact ⟨_, _, rfl⟩

namespace Parser

variable {f : Position → Position} {α β : Type} {tokens : List Token} {left : List Token → Prop}

/-- An answer or an error, and the tokens that are left, with all positions changed. -/
def relocateResult (f : Position → Position) (move : α → α)
    (result : EStateM.Result (Halt ParseError) (List Token) α) :
    EStateM.Result (Halt ParseError) (List Token) α :=
  match result with
  | .ok a rest => .ok (move a) (rest.map (Token.relocate f))
  | .error e rest => .error (e.map (ParseError.relocate f)) (rest.map (Token.relocate f))

/-- On tokens that are moved, one parser does what the other one does on the tokens where they were.
It leaves tokens of a kind behind, and its errors are about tokens that are there. -/
structure Relocates (f : Position → Position) (move : α → α) (moved plain : Parser α)
    (left : List Token → Prop) (tokens : List Token) : Prop where
  follows : moved (tokens.map (Token.relocate f)) = relocateResult f move (plain tokens)
  leaves : ∀ a rest, plain tokens = .ok a rest → left rest
  found : ∀ e rest, plain tokens = .error (.fault e) rest → e.cause ≠ .endOfTokens

/-- A parser that does the same on all lists of tokens that end, wherever they are. -/
def HandsOn (f : Position → Position) (move : α → α) (p : Parser α) : Prop :=
  ∀ tokens, Ends tokens → Relocates f move p p Ends tokens

@[simp] theorem forms_relocate (tokens : List Token) :
    forms (tokens.map (Token.relocate f)) = forms tokens := by
  simp [forms, Token.relocate]

namespace Relocates

variable {move : α → α} {move' : β → β} {moved plain : Parser α}

/-! ## Rules -/

theorem pure {a a' : α} (same : a' = move a) (ends : left tokens) :
    Relocates f move (pure a') (pure a) left tokens := by
  subst same
  constructor
  case follows => rfl
  case leaves => rintro _ _ ⟨⟩; exact ends
  case found => rintro _ _ ⟨⟩

theorem fail {cause : ParseCause} {p : Position} (found : cause ≠ .endOfTokens) :
    Relocates f move (fail cause (f p)) (fail cause p) left tokens := by
  refine ⟨rfl, nofun, ?_⟩
  rintro _ _ ⟨⟩
  exact found

theorem unexpected (t : Token) (expected : Expected) :
    Relocates f move (unexpected (t.relocate f) expected) (unexpected t expected) left tokens :=
  fail nofun

theorem exhausted : Relocates f move exhausted exhausted left tokens where
  follows := rfl
  leaves := nofun
  found := by rintro _ _ ⟨⟩

/-- Parsers that go on as others do behind some tokens. -/
theorem of_runs {moved₁ plain₁ : Parser α} {rest : List Token}
    (runMoved : moved (tokens.map (Token.relocate f)) = moved₁ (rest.map (Token.relocate f)))
    (run : plain tokens = plain₁ rest) (later : Relocates f move moved₁ plain₁ left rest) :
    Relocates f move moved plain left tokens where
  follows := by rw [runMoved, run, later.follows]
  leaves := by rw [run]; exact later.leaves
  found := by rw [run]; exact later.found

theorem bind {between : List Token → Prop} {k' k : α → Parser β}
    (first : Relocates f move moved plain between tokens)
    (further : ∀ a rest, between rest → Relocates f move' (k' (move a)) (k a) left rest) :
    Relocates f move' (moved >>= k') (plain >>= k) left tokens := by
  cases ending : plain tokens with
  | ok a rest =>
    refine of_runs ?_ ?_ (further a rest (first.leaves a rest ending))
    · rw [bind_run, first.follows, ending]
      rfl
    · rw [bind_run, ending]
  | error e rest =>
    have run : (plain >>= k) tokens = .error e rest := by rw [bind_run, ending]
    refine ⟨?_, by simp [run], fun e' rest' failed => ?_⟩
    · rw [run, bind_run, first.follows, ending]
      rfl
    · rw [run] at failed
      cases failed
      exact first.found _ _ ending

theorem bindUnexpected {k' k : α → Parser β} (t : Token) (expected : Expected) :
    Relocates f move' (Parser.unexpected (t.relocate f) expected >>= k')
      (Parser.unexpected t expected >>= k) left tokens :=
  have halts : Relocates f id (Parser.unexpected (t.relocate f) expected)
      (Parser.unexpected t expected) (fun _ => False) tokens := unexpected t expected
  halts.bind fun _ _ none => none.elim

theorem peek {k' k : Form → Parser β}
    (further : Relocates f move' (k' (ahead (forms tokens))) (k (ahead (forms tokens))) left
      tokens) :
    Relocates f move' (Parser.peek >>= k') (Parser.peek >>= k) left tokens :=
  of_runs (by rw [bind_run, peek_run, forms_relocate]) (by rw [bind_run, peek_run]) further

theorem peekPosition {k' k : Position → Parser β} (ends : Ends tokens)
    (further : ∀ p, Relocates f move' (k' (f p)) (k p) left tokens) :
    Relocates f move' (Parser.peekPosition >>= k') (Parser.peekPosition >>= k) left tokens := by
  obtain ⟨t, rest, rfl⟩ := ends.exists_cons
  exact of_runs (by rfl) (by rfl) (further t.position)

theorem peekToken? {k' k : Option Token → Parser β} (ends : Ends tokens)
    (further : ∀ t : Token, Relocates f move' (k' (some (t.relocate f))) (k (some t)) left tokens) :
    Relocates f move' (Parser.peekToken? >>= k') (Parser.peekToken? >>= k) left tokens := by
  obtain ⟨t, rest, rfl⟩ := ends.exists_cons
  exact of_runs (by rfl) (by rfl) (further t)

/-- The next token is there, and unless it means the end there are others behind it. -/
theorem next {k' k : Token → Parser β} (ends : Ends tokens)
    (further : ∀ t rest, t.form = ahead (forms tokens) → (t.form ≠ .finish → Ends rest) →
      Relocates f move' (k' (t.relocate f)) (k t) left rest) :
    Relocates f move' (Parser.next >>= k') (Parser.next >>= k) left tokens := by
  cases ends with
  | finish last =>
    exact of_runs (by rfl) (by rfl) (further _ [] rfl fun visible => absurd last visible)
  | cons visible ends => exact of_runs (by rfl) (by rfl) (further _ _ rfl fun _ => ends)

theorem accept {form : Form} {k' k : Bool → Parser β} (ends : Ends tokens)
    (visible : form ≠ .finish)
    (found : ∀ rest, Ends rest → Relocates f move' (k' true) (k true) left rest)
    (absent : Relocates f move' (k' false) (k false) left tokens) :
    Relocates f move' (Parser.accept form >>= k') (Parser.accept form >>= k) left tokens := by
  obtain ⟨t, rest, rfl⟩ := ends.exists_cons
  have run (p : Bool → Parser β) (t : Token) (rest : List Token) :
      (Parser.accept form >>= p) (t :: rest) =
        if t.form = form then p true rest else p false (t :: rest) := by
    rw [bind_run, accept_cons]
    by_cases same : t.form = form <;> simp [same]
  by_cases same : t.form = form
  · -- The token that is taken does not mean the end, so there are others behind it.
    have ends' : Ends rest := by
      cases ends with
      | finish last => exact absurd (same.symm.trans last) visible
      | cons _ further => exact further
    exact of_runs (by rw [List.map_cons, run]; exact if_pos same) (by rw [run, if_pos same])
      (found rest ends')
  · exact of_runs (by rw [List.map_cons, run]; exact if_neg same) (by rw [run, if_neg same]) absent

theorem expect {form : Form} {k' k : Position → Parser β} (ends : Ends tokens)
    (visible : form ≠ .finish)
    (further : ∀ p rest, Ends rest → Relocates f move' (k' (f p)) (k p) left rest) :
    Relocates f move' (Parser.expect form >>= k') (Parser.expect form >>= k) left tokens := by
  simp only [Parser.expect, bind_assoc]
  refine next ends fun t rest _ later => ?_
  rw [Token.form_relocate]
  split
  next same =>
    simp only [pure_bind]
    exact further t.position rest (later (same ▸ visible))
  next => exact bindUnexpected t _

theorem identifier {k' k : String × Position → Parser β} (ends : Ends tokens)
    (further : ∀ x p rest, Ends rest → Relocates f move' (k' (x, f p)) (k (x, p)) left rest) :
    Relocates f move' (Parser.identifier >>= k') (Parser.identifier >>= k) left tokens := by
  simp only [Parser.identifier, bind_assoc]
  refine next ends fun t rest _ later => ?_
  rw [Token.form_relocate]
  cases named : t.form with
  | name x =>
    simp only [pure_bind]
    exact further x t.position rest (later (by simp [named]))
  | symbol | keyword | literal | comment | finish =>
    exact bindUnexpected t _

end Relocates

/-! ## Lists -/

section Lists

variable {move : α → α} {item : Parser α} {closing : Symbol}

theorem items_relocate (each : HandsOn f move item) (n : Nat) :
    HandsOn f (List.map move) (items item closing n) := by
  induction n with
  | zero => exact fun _ _ => .exhausted
  | succ n inductionHypothesis =>
    refine fun tokens ends => (each tokens ends).bind fun a rest ends₁ => ?_
    refine .next ends₁ fun t rest _ later => ?_
    rw [Token.form_relocate]
    split
    next comma =>
      have ends₂ := later (by simp [comma])
      exact (inductionHypothesis rest ends₂).bind fun as rest ends₃ => .pure rfl ends₃
    next =>
      split
      next closed => exact .pure rfl (later (by simp [closed]))
      next => exact .unexpected t _

theorem list_relocates (each : HandsOn f move item) (n : Nat) :
    HandsOn f (List.map move) (list item closing n) := fun tokens ends =>
  .accept ends (by simp) (fun _ ends₁ => .pure rfl ends₁) (items_relocate each n tokens ends)

end Lists

/-! ## Types -/

theorem mutableBase_relocates : HandsOn f id mutableBase := by
  refine fun tokens ends => .next ends fun t rest _ later => ?_
  rw [Token.form_relocate]
  split
  · exact .unexpected t _
  · exact .unexpected t _
  next _ _ _ named => exact .pure rfl (later fun last => by simp [last, baseOf?] at named)

theorem plainBase_relocates : HandsOn f id plainBase := by
  refine fun tokens ends => .next ends fun t rest _ later => ?_
  rw [Token.form_relocate]
  split
  next _ _ named => exact .pure rfl (later fun last => by simp [last, baseOf?] at named)
  next => exact .unexpected t _

/-- The parsers of types under a bound. -/
structure TypesHandOn (f : Position → Position) (n : Nat) : Prop where
  type : HandsOn f id (type n)
  signature : HandsOn f id (signature n)
  paramType : HandsOn f id (paramType n)

theorem types_relocate (n : Nat) : TypesHandOn f n := by
  induction n with
  | zero => constructor <;> exact fun _ _ => .exhausted
  | succ n inductionHypothesis =>
    obtain ⟨type, signature, paramType⟩ := inductionHypothesis
    constructor
    case type =>
      refine fun tokens ends => .peek ?_
      split
      · exact (signature tokens ends).bind fun _ _ ends₁ => .pure rfl ends₁
      next mutable =>
        refine .next ends fun t rest front later => mutableBase_relocates rest (later ?_)
        simp [front, mutable]
      · exact plainBase_relocates tokens ends
    case signature =>
      refine fun tokens ends => .expect ends (by simp) fun _ rest ends₁ => ?_
      refine (type rest ends₁).bind fun ret rest ends₂ => ?_
      refine .expect ends₂ (by simp) fun _ rest ends₃ => ?_
      refine (list_relocates paramType n rest ends₃).bind fun params rest ends₄ => ?_
      exact .pure (by simp) ends₄
    case paramType =>
      refine fun tokens ends => .peekToken? ends fun t => ?_
      dsimp only
      rw [Token.form_relocate]
      split
      · exact .unexpected t _
      · exact type tokens ends

/-! ## Expressions -/

theorem decorated_relocates : HandsOn f (Expr.relocate f) decorated := by
  refine fun tokens ends => .identifier ends fun x p rest ends₁ => ?_
  refine .accept ends₁ (by simp) (fun rest ends₂ => ?_) (.pure rfl ends₁)
  exact .identifier ends₂ fun y q rest ends₃ => .pure rfl ends₃

theorem ungroup_relocates {p : Position} (es : List Expr) {tokens : List Token}
    (ends : Ends tokens) :
    Relocates f (Expr.relocate f) (ungroup (f p) (es.map (Expr.relocate f))) (ungroup p es) Ends
      tokens := by
  match es with
  | [] => exact .fail nofun
  | [e] => exact .pure rfl ends
  | e :: e' :: es =>
    simp only [List.map_cons, ungroup, List.length_cons, List.length_map]
    exact .fail nofun

/-- The parsers of expressions under a bound. -/
structure ExpressionsHandOn (f : Position → Position) (n : Nat) : Prop where
  level : ∀ l, HandsOn f (Expr.relocate f) (level n l)
  operand : ∀ l, HandsOn f (Expr.relocate f) (operand n l)
  further : ∀ l before tokens, Ends tokens → Relocates f (Expr.relocate f)
    (furtherOperands n l (before.relocate f)) (furtherOperands n l before) Ends tokens
  unary : HandsOn f (Expr.relocate f) (unary n)
  factor : HandsOn f (Expr.relocate f) (factor n)
  callOrGroup : HandsOn f (Expr.relocate f) (callOrGroup n)
  callee : HandsOn f (Expr.relocate f) (callee n)

theorem expressions_relocate (n : Nat) : ExpressionsHandOn f n := by
  -- Each of the parsers calls others, and every call is under a smaller bound.
  induction n with
  | zero => exact {
      level := fun _ _ _ => .exhausted, operand := fun _ _ _ => .exhausted
      further := fun _ _ _ _ => .exhausted, unary := fun _ _ => .exhausted
      factor := fun _ _ => .exhausted, callOrGroup := fun _ _ => .exhausted
      callee := fun _ _ => .exhausted }
  | succ n inductionHypothesis =>
    obtain ⟨level, operand, further, unary, factor, callOrGroup, callee⟩ := inductionHypothesis
    constructor
    case level =>
      exact fun l tokens ends => (operand l tokens ends).bind fun e rest ends₁ =>
        further l e rest ends₁
    case operand =>
      intro l tokens ends
      simp only [Parser.operand]
      split
      next tighter _ => exact level tighter tokens ends
      next => exact unary tokens ends
    case further =>
      refine fun l before tokens ends => .peek ?_
      split
      · exact .pure rfl ends
      next op front =>
        refine .next ends fun t rest same later => ?_
        -- The end is no operator.
        have ends₁ := later fun last => by
          rw [← same, last] at front
          simp [Level.op?, Form.binaryOp?] at front
        refine (operand l rest ends₁).bind fun e rest ends₂ => ?_
        have whole :
            Expr.binary op (before.relocate f) (e.relocate f) (before.relocate f).position =
              (Expr.binary op before e before.position).relocate f := by
          simp [Expr.relocate]
        simp only [whole]
        split
        · exact further l _ rest ends₂
        · exact .pure rfl ends₂
    case unary =>
      refine fun tokens ends => .peek ?_
      split
      · exact factor tokens ends
      next op front =>
        refine .next ends fun t rest same later => ?_
        have ends₁ := later fun last => by
          rw [← same, last] at front
          simp [Form.unaryOp?] at front
        exact (unary rest ends₁).bind fun e rest ends₂ => .pure rfl ends₂
    case factor =>
      refine fun tokens ends => .peek ?_
      split
      next value front =>
        exact .next ends fun t rest same later => .pure rfl (later (by simp [same, front]))
      · exact decorated_relocates tokens ends
      · exact callOrGroup tokens ends
      · exact .next ends fun t rest _ _ => .fail nofun
    case callOrGroup =>
      refine fun tokens ends => .expect ends (by simp) fun p rest ends₁ => ?_
      refine (list_relocates (level .or) n rest ends₁).bind fun args rest ends₂ => ?_
      refine .accept ends₂ (by simp) (fun rest ends₃ => ?_) ?_
      · refine (decorated_relocates rest ends₃).bind fun e rest ends₄ => .pure ?_ ends₄
        simp [Expr.relocate]
      · refine .accept ends₂ (by simp) (fun rest ends₃ => ?_) (ungroup_relocates args ends₂)
        refine (callee rest ends₃).bind fun e rest ends₄ => .pure ?_ ends₄
        simp [Expr.relocate]
    case callee =>
      refine fun tokens ends => .peek ?_
      split
      · exact callOrGroup tokens ends
      · exact decorated_relocates tokens ends

theorem expression_relocates (n : Nat) : HandsOn f (Expr.relocate f) (expression n) :=
  (expressions_relocate n).level .or

/-! ## Statements -/

theorem condition_relocates (n : Nat) : HandsOn f (Expr.relocate f) (condition n) := by
  refine fun tokens ends => .expect ends (by simp) fun _ rest ends₁ => ?_
  refine (expression_relocates n rest ends₁).bind fun e rest ends₂ => ?_
  exact .expect ends₂ (by simp) fun _ rest ends₃ => .pure rfl ends₃

theorem assignmentTail_relocates (n : Nat) (value : Expr) (p : Position) {tokens : List Token}
    (ends : Ends tokens) :
    Relocates f (Assignment.relocate f) (assignmentTail n (value.relocate f) (f p))
      (assignmentTail n value p) Ends tokens := by
  refine .expect ends (by simp) fun _ rest ends₁ => .peek ?_
  split
  · simp only [map_eq_pure_bind, bind_assoc, pure_bind]
    refine ((types_relocate n).type rest ends₁).bind fun t rest ends₂ => ?_
    refine .identifier ends₂ fun x _ rest ends₃ => ?_
    exact .expect ends₃ (by simp) fun _ rest ends₄ => .pure rfl ends₄
  · refine .identifier ends₁ fun x _ rest ends₂ => ?_
    exact .expect ends₂ (by simp) fun _ rest ends₃ => .pure rfl ends₃

theorem iterator_relocates (n : Nat) : HandsOn f (Iterator.relocate f) (iterator n) := by
  refine fun tokens ends => .peekPosition ends fun p => ?_
  refine (expression_relocates n tokens ends).bind fun e rest ends₁ => .peek ?_
  split
  · exact (assignmentTail_relocates n e p ends₁).bind fun a rest ends₂ => .pure rfl ends₂
  · refine .next ends₁ fun t rest _ later => ?_
    cases e with
    | name x q =>
      rw [Expr.relocate]
      dsimp only
      rw [Token.form_relocate]
      split
      next closed => exact .pure rfl (later (by simp [closed]))
      next => exact .unexpected t _
    | literal _ _ | unary _ _ _ | binary _ _ _ _ | call _ _ _ | bind _ _ _ => exact .unexpected t _

theorem assignOrRun_relocates (n : Nat) : HandsOn f (Stmt.relocate f) (assignOrRun n) := by
  refine fun tokens ends => .peekPosition ends fun p => ?_
  refine (expression_relocates n tokens ends).bind fun e rest ends₁ => .peek ?_
  split
  · exact (assignmentTail_relocates n e p ends₁).bind fun a rest ends₂ => .pure rfl ends₂
  · refine .next ends₁ fun t rest _ later => ?_
    rw [Token.form_relocate]
    split
    next closed => exact .pure rfl (later (by simp [closed]))
    next => exact .unexpected t _

theorem giveBack_relocates (n : Nat) : HandsOn f (Stmt.relocate f) (giveBack n) := by
  refine fun tokens ends => .expect ends (by simp) fun p rest ends₁ => ?_
  refine (expression_relocates n rest ends₁).bind fun e rest ends₂ => ?_
  exact .expect ends₂ (by simp) fun _ rest ends₃ => .pure rfl ends₃

/-- The parsers of statements under a bound. -/
structure StatementsHandOn (f : Position → Position) (n : Nat) : Prop where
  statement : HandsOn f (Stmt.relocate f) (statement n)
  otherwise : HandsOn f (Otherwise.relocate f) (otherwise n)
  block : HandsOn f (List.map (Stmt.relocate f)) (block n)
  statements : HandsOn f (List.map (Stmt.relocate f)) (statements n)

theorem statements_relocate (n : Nat) : StatementsHandOn f n := by
  induction n with
  | zero => constructor <;> exact fun _ _ => .exhausted
  | succ n inductionHypothesis =>
    obtain ⟨statement, otherwise, block, statements⟩ := inductionHypothesis
    have condition := condition_relocates (f := f) n
    constructor
    case statement =>
      refine fun tokens ends => .peek ?_
      split
      · refine .expect ends (by simp) fun p rest ends₁ => ?_
        refine (condition rest ends₁).bind fun cond rest ends₂ => ?_
        refine (block rest ends₂).bind fun body rest ends₃ => ?_
        exact (otherwise rest ends₃).bind fun o rest ends₄ => .pure (by simp [Stmt.relocate]) ends₄
      · refine .expect ends (by simp) fun p rest ends₁ => ?_
        refine (condition rest ends₁).bind fun cond rest ends₂ => ?_
        exact (block rest ends₂).bind fun body rest ends₃ => .pure (by simp [Stmt.relocate]) ends₃
      · refine .expect ends (by simp) fun p rest ends₁ => ?_
        refine .expect ends₁ (by simp) fun _ rest ends₂ => ?_
        refine (iterator_relocates n rest ends₂).bind fun i rest ends₃ => ?_
        refine (expression_relocates n rest ends₃).bind fun cond rest ends₄ => ?_
        refine .expect ends₄ (by simp) fun _ rest ends₅ => ?_
        refine (block rest ends₅).bind fun body rest ends₆ => ?_
        refine .expect ends₆ (by simp) fun _ rest ends₇ => ?_
        refine ((expressions_relocate n).callee rest ends₇).bind fun onIter rest ends₈ => ?_
        exact .expect ends₈ (by simp) fun _ rest ends₉ => .pure (by simp [Stmt.relocate]) ends₉
      · exact giveBack_relocates n tokens ends
      · exact assignOrRun_relocates n tokens ends
    case otherwise =>
      refine fun tokens ends => .peek ?_
      split
      · refine .expect ends (by simp) fun p rest ends₁ => ?_
        refine (condition rest ends₁).bind fun cond rest ends₂ => ?_
        refine (block rest ends₂).bind fun body rest ends₃ => ?_
        exact (otherwise rest ends₃).bind fun o rest ends₄ =>
          .pure (by simp [Otherwise.relocate]) ends₄
      · refine .expect ends (by simp) fun p rest ends₁ => ?_
        exact (block rest ends₁).bind fun body rest ends₂ =>
          .pure (by simp [Otherwise.relocate]) ends₂
      · exact .pure rfl ends
    case block =>
      refine fun tokens ends => .expect ends (by simp) fun p rest ends₁ => ?_
      refine (statements rest ends₁).bind fun body rest ends₂ => ?_
      exact .expect ends₂ (by simp) fun _ rest ends₃ => .pure rfl ends₃
    case statements =>
      refine fun tokens ends => .peek ?_
      split
      · exact .pure rfl ends
      · exact .pure rfl ends
      · refine (statement tokens ends).bind fun s rest ends₁ => ?_
        exact (statements rest ends₁).bind fun body rest ends₂ => .pure rfl ends₂

/-! ## Programs -/

theorem param_relocates (n : Nat) : HandsOn f id (param n) := by
  refine fun tokens ends => .peekPosition ends fun p => ?_
  refine ((types_relocate n).type tokens ends).bind fun t rest ends₁ => ?_
  refine .identifier ends₁ fun x _ rest ends₂ => ?_
  simp only [id_eq]
  split
  · exact .fail nofun
  · exact .pure rfl ends₂

theorem params_relocate (n : Nat) : HandsOn f id (params n) := by
  induction n with
  | zero => exact fun _ _ => .exhausted
  | succ n inductionHypothesis =>
    refine fun tokens ends => (param_relocates n tokens ends).bind fun x rest ends₁ => ?_
    refine .accept ends₁ (by simp) (fun rest ends₂ => ?_) (.pure rfl ends₁)
    exact (inductionHypothesis rest ends₂).bind fun xs rest ends₃ => .pure rfl ends₃

theorem paramList_relocates (n : Nat) : HandsOn f id (paramList n) := by
  refine fun tokens ends => .accept ends (by simp) (fun rest ends₁ => ?_) (.pure rfl ends)
  refine .peek ?_
  split
  · exact .pure rfl ends₁
  · exact params_relocate n rest ends₁

theorem function_relocates (n : Nat) : HandsOn f (Function.relocate f) (function n) := by
  refine fun tokens ends => .peekPosition ends fun p => ?_
  refine ((types_relocate n).type tokens ends).bind fun ret rest ends₁ => ?_
  refine .identifier ends₁ fun x _ rest ends₂ => ?_
  refine (paramList_relocates n rest ends₂).bind fun ps rest ends₃ => ?_
  refine ((statements_relocate n).block rest ends₃).bind fun body rest ends₄ => ?_
  exact .pure (by simp [Function.relocate]) ends₄

theorem functions_relocate (n : Nat) :
    HandsOn f (List.map (Function.relocate f)) (functions n) := by
  induction n with
  | zero => exact fun _ _ => .exhausted
  | succ n inductionHypothesis =>
    refine fun tokens ends => .peek ?_
    split
    · exact .pure rfl ends
    · refine (function_relocates n tokens ends).bind fun g rest ends₁ => ?_
      exact (inductionHypothesis rest ends₁).bind fun gs rest ends₂ => .pure rfl ends₂

/-- The token that means the end is the last one that a parser of a whole text takes. -/
theorem whole_relocates {move : α → α} {p : Parser α} {tokens : List Token}
    (inner : Relocates f move p p Ends tokens) :
    Relocates f move (do let a ← p; let _ ← expect Form.finish; return a)
      (do let a ← p; let _ ← expect Form.finish; return a) (fun _ => True) tokens := by
  refine inner.bind fun a rest ends => ?_
  simp only [expect, bind_assoc]
  refine .next ends fun t rest _ _ => ?_
  rw [Token.form_relocate]
  split
  · exact .pure rfl trivial
  · exact .bindUnexpected t _

/-- A parser of whole texts that hands positions on, whatever its bound is. -/
def HandsOnWhole (move : (Position → Position) → α → α) (p : Nat → Parser α) : Prop :=
  ∀ f n tokens, Ends tokens → Relocates f (move f) (p n) (p n) (fun _ => True) tokens

theorem program_relocates : HandsOnWhole Program.relocate program := fun _ n tokens ends =>
  whole_relocates (functions_relocate n tokens ends)

theorem standalone_relocates : HandsOnWhole Expr.relocate standalone := fun _ n tokens ends =>
  whole_relocates (expression_relocates n tokens ends)

section

variable {move : (Position → Position) → α → α} {p : Nat → Parser α}

theorem HandsOnWhole.result (handsOn : HandsOnWhole move p) (ends : Ends tokens) :
    Parser.result p (tokens.map (Token.relocate f)) =
      relocateOutcome f (move f) (Parser.result p tokens) := by
  have follows := (handsOn f (depth * (tokens.length + 1)) tokens ends).follows
  simp only [Parser.result, Parser.run, EStateM.run, List.length_map, follows]
  cases p (depth * (tokens.length + 1)) tokens with
  | ok a rest => rfl
  | error halt rest => cases halt <;> rfl

theorem HandsOnWhole.found (handsOn : HandsOnWhole move p) (ends : Ends tokens) {e : ParseError}
    (failed : Parser.result p tokens = .error (.fault (.grammatical e))) :
    e.cause ≠ .endOfTokens := by
  have found := (handsOn id (depth * (tokens.length + 1)) tokens ends).found
  simp only [Parser.result, Parser.run, EStateM.run] at failed
  cases ending : p (depth * (tokens.length + 1)) tokens with
  | ok a rest => rw [ending] at failed; cases failed
  | error halt rest =>
    rw [ending] at failed
    cases halt with
    | exhausted => cases failed
    | fault e' =>
      cases failed
      exact found e rest ending

end

end Parser

/-! ## The tokens of a text -/

theorem parseText_of_tokenize {α : Type} (p : Nat → Parser α) {source : String}
    {scanned : List Scanned} (success : tokenize source = .ok scanned) :
    parseText p source = (Parser.result p (codeTokens scanned)).map (·, warnings scanned) := by
  unfold parseText
  rw [success]
  dsimp only
  cases Parser.result p (codeTokens scanned) <;> rfl

theorem codeTokens_cons (s : Scanned) (scanned : List Scanned) :
    codeTokens (s :: scanned) =
      if s.token.form = .comment then codeTokens scanned else s.token :: codeTokens scanned := by
  by_cases comment : s.token.form = .comment <;> simp [codeTokens, comment]

theorem LongestMatch.codeTokens_end {p : Position} {text : List Char}
    {result : Except LexError (List Scanned)} (longestMatch : LongestMatch p text result) :
    ∀ scanned, result = .ok scanned → Ends (codeTokens scanned) := by
  induction longestMatch with
  | finish blank =>
    rintro _ ⟨⟩
    exact .finish rfl
  | fault => rintro _ ⟨⟩
  | @lexeme p gap lexeme rest form caution? result blank longest further inductionHypothesis =>
    intro scanned answered
    obtain ⟨others, rfl, rfl⟩ := exists_of_map_cons_eq_ok answered
    have ends := inductionHypothesis others rfl
    rw [codeTokens_cons]
    split
    · exact ends
    · exact .cons longest.isLexeme.form_ne_finish ends

theorem codeTokens_end {source : String} {scanned : List Scanned}
    (success : tokenize source = .ok scanned) : Ends (codeTokens scanned) :=
  (longestMatch_tokenize source).codeTokens_end scanned success

end Rightflow
