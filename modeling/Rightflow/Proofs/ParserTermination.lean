import Rightflow.Proofs.LocatedParsing

/-!
# Parsers come to an end

The parsers go down under a bound, which `Parser.run` takes from the length of the list.  Between
two tokens that they take they descend less deep than the bound provides for.  So the bound is never
reached, whatever the tokens are, and a greater one makes no difference (`Parser.Settles`).

Together with what a parser takes (`Parser.Takes`) this says that one token of lookahead is all
there is: `parsers_look_one_token_ahead`.
-/

namespace Rightflow.Parser

variable {α β : Type} {tokens : List Token}

/-! ## Ends other than the bound -/

/-- On the tokens, a parser comes to an end without reaching its bound, and another one, whose bound
may be greater, does the same. -/
structure Settles (p greater : Parser α) (tokens : List Token) : Prop where
  same : greater tokens = p tokens
  ends : ∀ rest, p tokens ≠ .error .exhausted rest

namespace Settles

variable {p greater : Parser α} {k k' : α → Parser β}

theorem pure (a : α) : Settles (pure a) (pure a) tokens := ⟨rfl, nofun⟩

theorem fail (cause : ParseCause) (position : Position) :
    Settles (fail cause position : Parser α) (fail cause position) tokens :=
  ⟨rfl, by rintro _ ⟨⟩⟩

theorem unexpected (t : Token) (expected : Expected) :
    Settles (unexpected t expected : Parser α) (unexpected t expected) tokens :=
  fail _ _

theorem bind (first : Settles p greater tokens)
    (further : ∀ a rest, p tokens = .ok a rest → Settles (k a) (k' a) rest) :
    Settles (p >>= k) (greater >>= k') tokens := by
  cases ending : p tokens with
  | ok a rest =>
    obtain ⟨same, ends⟩ := further a rest ending
    constructor
    · rw [bind_run, bind_run, first.same, ending]
      exact same
    · rw [bind_run, ending]
      exact ends
  | error e rest =>
    constructor
    · rw [bind_run, bind_run, first.same, ending]
    · rintro rest' reached
      rw [bind_run, ending] at reached
      cases reached
      exact first.ends _ ending

/-- What is made of an answer has no part in coming to an end. -/
theorem map (first : Settles p greater tokens) (f : α → β) :
    Settles (p >>= fun a => Pure.pure (f a)) (greater >>= fun a => Pure.pure (f a)) tokens :=
  first.bind fun a _ _ => pure (f a)

theorem peek {k k' : Form → Parser β} (further : ∀ f, Settles (k f) (k' f) tokens) :
    Settles (peek >>= k) (Parser.peek >>= k') tokens :=
  bind ⟨rfl, by rw [peek_run]; nofun⟩ fun a rest run => by
    rw [peek_run] at run
    cases run
    exact further _

theorem peekToken? {k k' : Option Token → Parser β}
    (further : ∀ t?, Settles (k t?) (k' t?) tokens) :
    Settles (peekToken? >>= k) (Parser.peekToken? >>= k') tokens :=
  bind ⟨rfl, nofun⟩ fun a rest run => by
    cases run
    exact further _

theorem peekPosition {k k' : Position → Parser β}
    (further : ∀ position, Settles (k position) (k' position) tokens) :
    Settles (peekPosition >>= k) (Parser.peekPosition >>= k') tokens :=
  bind ⟨rfl, nofun⟩ fun a rest run => by
    cases run
    exact further _

theorem next {k k' : Token → Parser β}
    (further : ∀ t rest, rest.length < tokens.length → Settles (k t) (k' t) rest) :
    Settles (next >>= k) (Parser.next >>= k') tokens := by
  cases tokens with
  | nil => exact ⟨rfl, by rintro _ ⟨⟩⟩
  | cons t rest =>
    refine bind ⟨rfl, nofun⟩ fun a left run => ?_
    cases run
    exact further t rest (Nat.lt_succ_self _)

theorem accept {f : Form} {k k' : Bool → Parser β}
    (found : ∀ rest, rest.length < tokens.length → Settles (k true) (k' true) rest)
    (absent : Settles (k false) (k' false) tokens) :
    Settles (accept f >>= k) (Parser.accept f >>= k') tokens := by
  cases tokens with
  | nil => exact bind ⟨rfl, nofun⟩ fun a left run => by cases run; exact absent
  | cons t rest =>
    refine bind ⟨rfl, by rw [accept_cons]; split <;> nofun⟩ fun a left run => ?_
    rw [accept_cons] at run
    split at run <;> cases run
    · exact found rest (Nat.lt_succ_self _)
    · exact absent

theorem expect {f : Form} {k k' : Position → Parser β}
    (further : ∀ position rest, rest.length < tokens.length →
      Settles (k position) (k' position) rest) :
    Settles (expect f >>= k) (Parser.expect f >>= k') tokens := by
  rw [Parser.expect, bind_assoc, bind_assoc]
  refine next fun t rest shorter => ?_
  split
  · simp only [pure_bind]
    exact further t.position rest shorter
  · exact bind (unexpected t _) (by rintro _ _ ⟨⟩)

theorem identifier {k k' : String × Position → Parser β}
    (further : ∀ x position rest, rest.length < tokens.length →
      Settles (k (x, position)) (k' (x, position)) rest) :
    Settles (identifier >>= k) (Parser.identifier >>= k') tokens := by
  rw [Parser.identifier, bind_assoc, bind_assoc]
  refine next fun t rest shorter => ?_
  split
  · simp only [pure_bind]
    exact further _ t.position rest shorter
  · exact bind (unexpected t _) (by rintro _ _ ⟨⟩)

end Settles

/-! ## Bounds -/

/-- Under the bound, a parser may descend so deep before it takes the first of the tokens. -/
def Allows (n : Nat) (tokens : List Token) (descent : Nat) : Prop :=
  depth * tokens.length + descent ≤ n

namespace Allows

variable {n d k : Nat} {rest : List Token}

theorem descend (allows : Allows (n + 1) tokens (d + 1)) : Allows n tokens d :=
  Nat.le_of_succ_le_succ allows

theorem mono (allows : Allows n tokens d) (shallow : k ≤ d) : Allows n tokens k :=
  Nat.le_trans (Nat.add_le_add_left shallow _) allows

/-- Behind a token that is taken, there may be a whole descent again. -/
theorem behind (allows : Allows n tokens d) (shorter : rest.length < tokens.length)
    (shallow : k ≤ depth) : Allows n rest k :=
  calc
    depth * rest.length + k ≤ depth * rest.length + depth := Nat.add_le_add_left shallow _
    _ ≤ depth * tokens.length := Nat.mul_le_mul_left depth shorter
    _ ≤ depth * tokens.length + d := Nat.le_add_right _ _
    _ ≤ n := allows

theorem length_le (allows : Allows n tokens d) : tokens.length ≤ n :=
  calc
    tokens.length ≤ depth * tokens.length := Nat.le_mul_of_pos_left _ (by decide)
    _ ≤ depth * tokens.length + d := Nat.le_add_right _ _
    _ ≤ n := allows

theorem of_run (tokens : List Token) (shallow : d ≤ depth) :
    Allows (depth * (tokens.length + 1)) tokens d :=
  Nat.add_le_add_left shallow _

/-- No descent is possible under the least bound. -/
theorem pos (allows : Allows n tokens (d + 1)) : 0 < n :=
  Nat.lt_of_lt_of_le (Nat.succ_pos _) allows

end Allows

/-! ## Lists -/

section Lists

variable {item greater : Parser α} {closing : Symbol} {n m : Nat}

theorem items_settle (enough : tokens.length < n) (le : n ≤ m)
    (each : ∀ ts : List Token, ts.length ≤ tokens.length → Settles item greater ts)
    (shortens : ∀ ts a rest, item ts = .ok a rest → rest.length < ts.length) :
    Settles (items item closing n) (items greater closing m) tokens := by
  induction n generalizing m tokens with
  | zero => omega
  | succ n inductionHypothesis =>
    obtain ⟨m, rfl⟩ := Nat.exists_eq_add_one_of_ne_zero (Nat.ne_zero_of_lt le)
    refine .bind (each tokens (Nat.le_refl _)) fun a rest run => .next fun t left shorter => ?_
    -- An item takes a token, and the bound was more than one for each.
    have shortened := shortens tokens a rest run
    split
    · refine .map (inductionHypothesis (by omega) (by omega) fun ts le => each ts ?_) _
      omega
    · split
      · exact .pure _
      · exact .unexpected t _

theorem list_settles (enough : tokens.length < n) (le : n ≤ m)
    (each : ∀ ts : List Token, ts.length ≤ tokens.length → Settles item greater ts)
    (shortens : ∀ ts a rest, item ts = .ok a rest → rest.length < ts.length) :
    Settles (list item closing n) (list greater closing m) tokens :=
  .accept (fun _ _ => .pure []) (items_settle enough le each shortens)

end Lists

/-! ## Types -/

theorem mutableBase_settles (tokens : List Token) : Settles mutableBase mutableBase tokens := by
  refine .next fun t rest _ => ?_
  split
  · exact .unexpected t _
  · exact .unexpected t _
  · exact .pure _

theorem plainBase_settles (tokens : List Token) : Settles plainBase plainBase tokens := by
  refine .next fun t rest _ => ?_
  split
  · exact .pure _
  · exact .unexpected t _

/-- The parsers of types under two bounds, of which the smaller one is great enough for the list. -/
structure TypesSettle (n m : Nat) : Prop where
  type : ∀ tokens, Allows n tokens 2 → Settles (type n) (type m) tokens
  signature : ∀ tokens, Allows n tokens 1 → Settles (signature n) (signature m) tokens
  paramType : ∀ tokens, Allows n tokens 3 → Settles (paramType n) (paramType m) tokens

theorem types_settle {n m : Nat} (le : n ≤ m) : TypesSettle n m := by
  induction n generalizing m with
  | zero => constructor <;> exact fun _ allows => absurd allows.pos (Nat.lt_irrefl 0)
  | succ n inductionHypothesis =>
    obtain ⟨m, rfl⟩ := Nat.exists_eq_add_one_of_ne_zero (Nat.ne_zero_of_lt le)
    have le := Nat.le_of_succ_le_succ le
    obtain ⟨type, signature, paramType⟩ := inductionHypothesis le
    constructor <;> intro tokens allows <;> have allows := allows.descend
    case type =>
      refine .peek fun f => ?_
      split
      · exact .map (signature tokens allows) _
      · exact .next fun t rest _ => mutableBase_settles rest
      · exact plainBase_settles tokens
    case signature =>
      refine .expect fun _ rest shorter => ?_
      refine (type rest (allows.behind shorter (by decide))).bind fun ret rest' run => ?_
      have shortened := ((types_take n).type rest).length_lt (fun _ _ => id) run
      refine .expect fun _ left shorter' => .map ?_ _
      have fits := allows.length_le
      refine list_settles (by omega) le (fun ts le => paramType ts ?_) ?_
      · exact allows.behind (by omega) (by decide)
      · exact fun ts a rest run => ((types_take n).paramType ts).length_lt (fun _ _ => id) run
    case paramType =>
      refine .peekToken? fun t? => ?_
      split
      · split
        · exact .unexpected _ _
        · exact type tokens allows
      · exact type tokens allows

/-! ## Expressions -/

theorem decorated_settles (tokens : List Token) : Settles decorated decorated tokens := by
  refine .identifier fun x _ rest _ => .accept (fun rest _ => ?_) (.pure _)
  exact .identifier fun y _ rest _ => .pure _

theorem ungroup_settles (position : Position) (args : List Expr) (tokens : List Token) :
    Settles (ungroup position args) (ungroup position args) tokens := by
  unfold ungroup
  split
  · exact .pure _
  · exact .fail _ _

/-- The loosest operators are furthest away from a token. -/
theorem descent_le (tier : Tier) : tier.descent ≤ 13 := by
  cases tier with
  | level l => cases l <;> decide
  | unary | factor | parenthesized | callee => decide

theorem Allows.descent_pos {n : Nat} {tier : Tier} (allows : Allows n tokens tier.descent) :
    0 < n :=
  (allows.mono tier.descent_pos).pos

/-- The parsers of expressions under two bounds, of which the smaller one is great enough. -/
structure ExpressionsSettle (n m : Nat) : Prop where
  level : ∀ l tokens, Allows n tokens (Tier.level l).descent →
    Settles (level n l) (level m l) tokens
  operand : ∀ l tokens, Allows n tokens (l.operands.descent + 1) →
    Settles (operand n l) (operand m l) tokens
  further : ∀ l left tokens, Allows n tokens 1 →
    Settles (furtherOperands n l left) (furtherOperands m l left) tokens
  unary : ∀ tokens, Allows n tokens Tier.unary.descent → Settles (unary n) (unary m) tokens
  factor : ∀ tokens, Allows n tokens Tier.factor.descent → Settles (factor n) (factor m) tokens
  callOrGroup : ∀ tokens, Allows n tokens Tier.parenthesized.descent →
    Settles (callOrGroup n) (callOrGroup m) tokens
  callee : ∀ tokens, Allows n tokens Tier.callee.descent → Settles (callee n) (callee m) tokens

section

variable {n m : Nat} (ih : ExpressionsSettle n m)

include ih

theorem level_succ_settles (l : Level) (tokens : List Token)
    (allows : Allows (n + 1) tokens (Tier.level l).descent) :
    Settles (level (n + 1) l) (level (m + 1) l) tokens := by
  rw [l.operands_descent] at allows
  refine (ih.operand l tokens allows.descend).bind fun left rest run => ih.further l left rest ?_
  have shortened :=
    ((expressions_take n).operand l tokens).length_lt (fun _ _ located => located.ne_nil) run
  exact allows.descend.behind shortened (by decide)

theorem operand_succ_settles (l : Level) (tokens : List Token)
    (allows : Allows (n + 1) tokens (l.operands.descent + 1)) :
    Settles (operand (n + 1) l) (operand (m + 1) l) tokens := by
  cases l with
  | or => exact ih.level .and tokens allows.descend
  | and => exact ih.level .comparison tokens allows.descend
  | comparison => exact ih.level .additive tokens allows.descend
  | additive => exact ih.level .multiplicative tokens allows.descend
  | multiplicative => exact ih.unary tokens allows.descend

theorem furtherOperands_succ_settles (l : Level) (left : Expr) (tokens : List Token)
    (allows : Allows (n + 1) tokens 1) :
    Settles (furtherOperands (n + 1) l left) (furtherOperands (m + 1) l left) tokens := by
  have shallow : l.operands.descent + 1 ≤ depth :=
    Nat.le_trans (Nat.succ_le_succ (descent_le l.operands)) (by decide)
  refine .peek fun f => ?_
  split
  · exact .pure _
  · refine .next fun t rest shorter => ?_
    have allows := allows.descend
    refine (ih.operand l rest (allows.behind shorter shallow)).bind fun right rest' run => ?_
    have shortened :=
      ((expressions_take n).operand l rest).length_lt (fun _ _ located => located.ne_nil) run
    split
    · exact ih.further l _ rest' (allows.behind (by omega) (by decide))
    · exact .pure _

theorem unary_succ_settles (tokens : List Token)
    (allows : Allows (n + 1) tokens Tier.unary.descent) :
    Settles (unary (n + 1)) (unary (m + 1)) tokens := by
  have allows : Allows n tokens Tier.factor.descent := allows.descend
  refine .peek fun f => ?_
  split
  · exact ih.factor tokens allows
  · exact .next fun t rest shorter => .map (ih.unary rest (allows.behind shorter (by decide))) _

theorem factor_succ_settles (tokens : List Token)
    (allows : Allows (n + 1) tokens Tier.factor.descent) :
    Settles (factor (n + 1)) (factor (m + 1)) tokens := by
  refine .peek fun f => ?_
  split
  · exact .next fun t rest _ => .pure _
  · exact decorated_settles tokens
  · exact ih.callOrGroup tokens allows.descend
  · exact .next fun t rest _ => .fail _ _

theorem callOrGroup_succ_settles (le : n ≤ m) (tokens : List Token)
    (allows : Allows (n + 1) tokens Tier.parenthesized.descent) :
    Settles (callOrGroup (n + 1)) (callOrGroup (m + 1)) tokens := by
  have allows : Allows n tokens 0 := allows.descend
  have fits := allows.length_le
  have takes := (expressions_take n).level .or
  refine .expect fun position rest shorter => ?_
  refine (list_settles (by omega) le (fun ts _ => ih.level .or ts ?_) ?_).bind ?_
  · exact allows.behind (by omega) (by decide)
  · exact fun ts e left run => (takes ts).length_lt (fun _ _ located => located.ne_nil) run
  · intro args rest' run
    have shortened := (list_takes n takes rest).length_le run
    refine .accept (fun left _ => (decorated_settles left).map _) (.accept (fun left shorter' => ?_)
      (ungroup_settles position args rest'))
    exact (ih.callee left (allows.behind (by omega) (by decide))).map _

theorem callee_succ_settles (tokens : List Token)
    (allows : Allows (n + 1) tokens Tier.callee.descent) :
    Settles (callee (n + 1)) (callee (m + 1)) tokens := by
  refine .peek fun f => ?_
  split
  · exact ih.callOrGroup tokens allows.descend
  · exact decorated_settles tokens

end

theorem expressions_settle {n m : Nat} (le : n ≤ m) : ExpressionsSettle n m := by
  induction n generalizing m with
  | zero =>
    have none : ¬ 0 < 0 := Nat.lt_irrefl 0
    exact ⟨fun _ _ allows => absurd allows.descent_pos none,
      fun _ _ allows => absurd allows.pos none, fun _ _ _ allows => absurd allows.pos none,
      fun _ allows => absurd allows.descent_pos none,
      fun _ allows => absurd allows.descent_pos none,
      fun _ allows => absurd allows.descent_pos none,
      fun _ allows => absurd allows.descent_pos none⟩
  | succ n inductionHypothesis =>
    obtain ⟨m, rfl⟩ := Nat.exists_eq_add_one_of_ne_zero (Nat.ne_zero_of_lt le)
    have le := Nat.le_of_succ_le_succ le
    have ih := inductionHypothesis le
    exact ⟨level_succ_settles ih, operand_succ_settles ih, furtherOperands_succ_settles ih,
      unary_succ_settles ih, factor_succ_settles ih, callOrGroup_succ_settles ih le,
      callee_succ_settles ih⟩

theorem expression_settles {n m : Nat} (le : n ≤ m) (tokens : List Token)
    (allows : Allows n tokens 13) : Settles (expression n) (expression m) tokens :=
  (expressions_settle le).level .or tokens allows

/-! ## Statements -/

section

variable {n m : Nat} (le : n ≤ m)

include le

theorem condition_settles (tokens : List Token) (allows : Allows n tokens 0) :
    Settles (condition n) (condition m) tokens := by
  refine .expect fun _ rest shorter => ?_
  have enough : Allows n rest 13 := allows.behind shorter (by decide)
  refine (expression_settles le rest enough).bind fun e rest' _ => ?_
  exact .expect fun _ _ _ => .pure e

theorem assignmentTail_settles (value : Expr) (position : Position) (tokens : List Token)
    (allows : Allows n tokens 0) :
    Settles (assignmentTail n value position) (assignmentTail m value position) tokens := by
  refine .expect fun _ rest shorter => .peek fun f => ?_
  split
  next =>
    have enough : Allows n rest 2 := allows.behind shorter (by decide)
    have declared := ((types_settle le).type rest enough).map some
    rw [map_eq_pure_bind, map_eq_pure_bind]
    refine declared.bind fun declared? left _ => ?_
    exact .identifier fun x _ _ _ => .expect fun _ _ _ => .pure _
  next => exact .identifier fun x _ _ _ => .expect fun _ _ _ => .pure _

theorem assignmentOr_settles {α : Type} {answer : Assignment → α} {k : Position → Expr → Parser α}
    (tokens : List Token) (allows : Allows n tokens 13)
    (other : ∀ position e rest, Settles (k position e) (k position e) rest) :
    Settles
      (do
        let position ← peekPosition
        let e ← expression n
        if (← peek) = .symbol .assign then return answer (← assignmentTail n e position)
        else k position e)
      (do
        let position ← peekPosition
        let e ← expression m
        if (← peek) = .symbol .assign then return answer (← assignmentTail m e position)
        else k position e) tokens := by
  refine .peekPosition fun position => ?_
  refine (expression_settles le tokens allows).bind fun e rest run => .peek fun f => ?_
  have shortened :=
    (expression_takes n tokens).length_lt (fun _ _ located => located.ne_nil) run
  split
  · have enough : Allows n rest 0 := allows.behind shortened (by decide)
    exact (assignmentTail_settles le e position rest enough).map answer
  · exact other position e rest

theorem iterator_settles (tokens : List Token) (allows : Allows n tokens 13) :
    Settles (iterator n) (iterator m) tokens := by
  refine assignmentOr_settles le tokens allows fun position e rest => .next fun t _ _ => ?_
  split
  · split
    · exact .pure _
    · exact .unexpected t _
  · exact .unexpected t _

theorem assignOrRun_settles (tokens : List Token) (allows : Allows n tokens 13) :
    Settles (assignOrRun n) (assignOrRun m) tokens := by
  refine assignmentOr_settles le tokens allows fun position e rest => .next fun t _ _ => ?_
  split
  · exact .pure _
  · exact .unexpected t _

theorem giveBack_settles (tokens : List Token) (allows : Allows n tokens 0) :
    Settles (giveBack n) (giveBack m) tokens := by
  refine .expect fun _ rest shorter => ?_
  have enough : Allows n rest 13 := allows.behind shorter (by decide)
  refine (expression_settles le rest enough).bind fun e rest' _ => ?_
  exact .expect fun _ _ _ => .pure _

end

/-- The parsers of statements under two bounds, of which the smaller one is great enough. -/
structure StatementsSettle (n m : Nat) : Prop where
  statement : ∀ tokens, Allows n tokens 14 → Settles (statement n) (statement m) tokens
  otherwise : ∀ tokens, Allows n tokens 1 → Settles (otherwise n) (otherwise m) tokens
  block : ∀ tokens, Allows n tokens 1 → Settles (block n) (block m) tokens
  statements : ∀ tokens, Allows n tokens 15 → Settles (statements n) (statements m) tokens

section

variable {n m : Nat} (ih : StatementsSettle n m) (le : n ≤ m)

include ih le

/-- The parts of a conditional stand behind a token that has been taken. -/
theorem conditional_settles {α : Type} {answer : Expr → Block → Otherwise → α}
    {before : List Token} (allows : Allows n before 0) (tokens : List Token)
    (shorter : tokens.length < before.length) :
    Settles
      (do
        let cond ← condition n
        let body ← block n
        return answer cond body (← otherwise n))
      (do
        let cond ← condition m
        let body ← block m
        return answer cond body (← otherwise m)) tokens := by
  have enough : Allows n tokens 0 := allows.behind shorter (by decide)
  refine (condition_settles le tokens enough).bind fun cond rest run => ?_
  have shortened := (condition_takes n tokens).length_le run
  have enough : Allows n rest 1 := allows.behind (by omega) (by decide)
  refine (ih.block rest enough).bind fun body left run => ?_
  have shortened' := ((statements_take n).block rest).length_le run
  exact (ih.otherwise left (allows.behind (by omega) (by decide))).map _

theorem statement_succ_settles (tokens : List Token) (allows : Allows (n + 1) tokens 14) :
    Settles (statement (n + 1)) (statement (m + 1)) tokens := by
  have allows : Allows n tokens 13 := allows.descend
  have allows' : Allows n tokens 0 := allows.mono (Nat.zero_le _)
  refine .peek fun f => ?_
  split
  next => exact .expect fun position rest shorter => conditional_settles ih le allows' rest shorter
  next =>
    refine .expect fun position rest shorter => ?_
    have enough : Allows n rest 0 := allows.behind shorter (by decide)
    refine (condition_settles le rest enough).bind fun cond left run => ?_
    have shortened := (condition_takes n rest).length_le run
    exact (ih.block left (allows.behind (by omega) (by decide))).map _
  next =>
    -- Whatever part comes next, the keyword before it has been taken.
    refine .expect fun position rest shorter => .expect fun _ rest' shorter' => ?_
    have enough : Allows n rest' 13 := allows.behind (Nat.lt_trans shorter' shorter) (by decide)
    refine (iterator_settles le rest' enough).bind fun iter ts run => ?_
    have shortened := (iterator_takes n rest').length_le run
    have enough : Allows n ts 13 := allows.behind (by omega) (by decide)
    refine (expression_settles le ts enough).bind fun cond us run => ?_
    have shortened' := (expression_takes n ts).length_le run
    refine .expect fun _ vs shorter => ?_
    have enough : Allows n vs 1 := allows.behind (by omega) (by decide)
    refine (ih.block vs enough).bind fun body ws run => ?_
    have shortened'' := ((statements_take n).block vs).length_le run
    refine .expect fun _ xs shorter => ?_
    have enough : Allows n xs Tier.callee.descent := allows.behind (by omega) (by decide)
    refine ((expressions_settle le).callee xs enough).bind fun onIter left _ => ?_
    exact .expect fun _ _ _ => .pure _
  next => exact giveBack_settles le tokens allows'
  next => exact assignOrRun_settles le tokens allows

theorem otherwise_succ_settles (tokens : List Token) (allows : Allows (n + 1) tokens 1) :
    Settles (otherwise (n + 1)) (otherwise (m + 1)) tokens := by
  have allows : Allows n tokens 0 := allows.descend
  refine .peek fun f => ?_
  split
  next => exact .expect fun position rest shorter => conditional_settles ih le allows rest shorter
  next =>
    refine .expect fun position rest shorter => ?_
    exact (ih.block rest (allows.behind shorter (by decide))).map _
  next => exact .pure _

omit le in
theorem block_succ_settles (tokens : List Token) (allows : Allows (n + 1) tokens 1) :
    Settles (block (n + 1)) (block (m + 1)) tokens := by
  refine .expect fun _ rest shorter => ?_
  have enough : Allows n rest 15 := allows.descend.behind shorter (by decide)
  refine (ih.statements rest enough).bind fun body left _ => ?_
  exact .expect fun _ _ _ => .pure body

omit le in
theorem statements_succ_settles (tokens : List Token) (allows : Allows (n + 1) tokens 15) :
    Settles (statements (n + 1)) (statements (m + 1)) tokens := by
  have allows : Allows n tokens 14 := allows.descend
  refine .peek fun f => ?_
  split
  next => exact .pure _
  next => exact .pure _
  next =>
    refine (ih.statement tokens allows).bind fun s rest run => ?_
    have shortened :=
      ((statements_take n).statement tokens).length_lt (fun _ _ located => located.ne_nil) run
    exact (ih.statements rest (allows.behind shortened (by decide))).map _

end

theorem statements_settle {n m : Nat} (le : n ≤ m) : StatementsSettle n m := by
  induction n generalizing m with
  | zero => constructor <;> exact fun _ allows => absurd allows.pos (Nat.lt_irrefl 0)
  | succ n inductionHypothesis =>
    obtain ⟨m, rfl⟩ := Nat.exists_eq_add_one_of_ne_zero (Nat.ne_zero_of_lt le)
    have le := Nat.le_of_succ_le_succ le
    have ih := inductionHypothesis le
    exact ⟨statement_succ_settles ih le, otherwise_succ_settles ih le, block_succ_settles ih,
      statements_succ_settles ih⟩

/-! ## Functions -/

section

variable {n m : Nat} (le : n ≤ m)

include le

theorem param_settles (tokens : List Token) (allows : Allows n tokens 2) :
    Settles (param n) (param m) tokens := by
  refine .peekPosition fun position => ?_
  refine ((types_settle le).type tokens allows).bind fun t rest _ => .identifier fun x _ _ _ => ?_
  dsimp only
  split
  · exact .fail _ _
  · exact .pure _

theorem params_settle (tokens : List Token) (allows : Allows n tokens 3) :
    Settles (params n) (params m) tokens := by
  induction n generalizing m tokens with
  | zero => exact absurd allows.pos (Nat.lt_irrefl 0)
  | succ n inductionHypothesis =>
    obtain ⟨m, rfl⟩ := Nat.exists_eq_add_one_of_ne_zero (Nat.ne_zero_of_lt le)
    have le := Nat.le_of_succ_le_succ le
    have allows : Allows n tokens 2 := allows.descend
    refine (param_settles le tokens allows).bind fun p rest run => ?_
    have shortened := (param_takes n tokens).length_lt (fun _ _ => id) run
    refine .accept (fun left shorter => ?_) (.pure _)
    have enough : Allows n left 3 := allows.behind (Nat.lt_trans shorter shortened) (by decide)
    exact (inductionHypothesis le left enough).map _

theorem paramList_settles (tokens : List Token) (allows : Allows n tokens 0) :
    Settles (paramList n) (paramList m) tokens := by
  refine .accept (fun rest shorter => .peek fun f => ?_) (.pure [])
  split
  · exact .pure []
  · exact params_settle le rest (allows.behind shorter (by decide))

theorem function_settles (tokens : List Token) (allows : Allows n tokens 2) :
    Settles (function n) (function m) tokens := by
  refine .peekPosition fun position => ?_
  refine ((types_settle le).type tokens allows).bind fun ret rest run => ?_
  have shortened := ((types_take n).type tokens).length_lt (fun _ _ => id) run
  refine .identifier fun x _ left shorter => ?_
  have enough : Allows n left 0 := allows.behind (Nat.lt_trans shorter shortened) (by decide)
  refine (paramList_settles le left enough).bind fun ps left' run => ?_
  have shortened' := (paramList_takes n left).length_le run
  exact ((statements_settle le).block left' (allows.behind (by omega) (by decide))).map _

end

/-! ## One token of lookahead -/

/-- A parser that takes at least one token from the front of any list, and looks at no more than the
class of the one behind.  Every bound that is great enough for the length of the list is as good as
any other, and none of them is reached. -/
structure ReadsFront (p : Nat → Parser α) : Prop where
  same : ∀ tokens n, depth * (tokens.length + 1) ≤ n → p n tokens = run p tokens
  ends : ∀ tokens rest, run p tokens ≠ .error .exhausted rest
  takes : ∀ tokens a rest, run p tokens = .ok a rest →
    ∃ taken, taken ≠ [] ∧ tokens = taken ++ rest ∧
      ∀ other, nextClass other = nextClass rest → run p (taken ++ other) = .ok a other

theorem ReadsFront.of_settles {p : Nat → Parser α} {P : List Token → α → Prop}
    (settles : ∀ {n m : Nat}, n ≤ m → ∀ tokens, Allows n tokens 14 → Settles (p n) (p m) tokens)
    (takes : ∀ n tokens, Takes (p n) tokens P) (nonempty : ∀ taken a, P taken a → taken ≠ []) :
    ReadsFront p := by
  have settles' (tokens : List Token) {n : Nat} (enough : depth * (tokens.length + 1) ≤ n) :
      Settles (p (depth * (tokens.length + 1))) (p n) tokens :=
    settles enough tokens (.of_run tokens (by decide))
  refine ⟨fun tokens n enough => (settles' tokens enough).same,
    fun tokens => (settles' tokens (Nat.le_refl _)).ends, fun tokens a rest answered => ?_⟩
  obtain ⟨taken, rfl, holds, -⟩ := takes _ tokens a rest answered
  refine ⟨taken, nonempty taken a holds, rfl, fun other alike => ?_⟩
  -- Both lists are read under one bound that is great enough for either of them.
  obtain ⟨n, enough, enough'⟩ : ∃ n, depth * ((taken ++ rest).length + 1) ≤ n ∧
      depth * ((taken ++ other).length + 1) ≤ n := ⟨_, Nat.le_max_left _ _, Nat.le_max_right _ _⟩
  have answered' : p n (taken ++ rest) = .ok a rest := (settles' _ enough).same.trans answered
  obtain ⟨taken', split, -, again⟩ := takes n _ a rest answered'
  obtain rfl := List.append_cancel_right split
  exact (settles' _ enough').same.symm.trans (again other alike)

/-- Whatever the tokens are, each parser of a type, an expression, a statement, a block or a
function comes to an end.  Where it succeeds it takes tokens from the front, at least one, and
leaves the others; which ones and what it makes of them depends on them and on the class of the
first one left. -/
theorem parsers_look_one_token_ahead :
    ReadsFront type ∧ ReadsFront signature ∧ ReadsFront paramType ∧
    (∀ l, ReadsFront (level · l)) ∧ ReadsFront unary ∧ ReadsFront factor ∧
    ReadsFront callOrGroup ∧ ReadsFront callee ∧ ReadsFront (fun _ => decorated) ∧
    ReadsFront expression ∧ ReadsFront condition ∧ ReadsFront iterator ∧ ReadsFront assignOrRun ∧
    ReadsFront giveBack ∧ ReadsFront statement ∧ ReadsFront block ∧ ReadsFront param ∧
    ReadsFront function := by
  -- Each parser settles within the depth that its tokens allow, and takes at least one of them.
  refine ⟨?type, ?signature, ?paramType, fun l => ?level, ?unary, ?factor, ?callOrGroup, ?callee,
    ?decorated, ?expression, ?condition, ?iterator, ?assignOrRun, ?giveBack, ?statement, ?block,
    ?param, ?function⟩
  case type =>
    exact .of_settles (fun le ts allows => (types_settle le).type ts (allows.mono (by decide)))
      (fun n => (types_take n).type) fun _ _ => id
  case signature =>
    exact .of_settles (fun le ts allows => (types_settle le).signature ts (allows.mono (by decide)))
      (fun n => (types_take n).signature) fun _ _ => id
  case paramType =>
    exact .of_settles (fun le ts allows => (types_settle le).paramType ts (allows.mono (by decide)))
      (fun n => (types_take n).paramType) fun _ _ => id
  case level =>
    exact .of_settles
      (fun le ts allows => (expressions_settle le).level l ts
        (allows.mono (Nat.le_succ_of_le (descent_le (.level l)))))
      (fun n => (expressions_take n).level l) fun _ _ located => located.ne_nil
  case unary =>
    exact .of_settles
      (fun le ts allows => (expressions_settle le).unary ts (allows.mono (by decide)))
      (fun n => (expressions_take n).unary) fun _ _ located => located.ne_nil
  case factor =>
    exact .of_settles
      (fun le ts allows => (expressions_settle le).factor ts (allows.mono (by decide)))
      (fun n => (expressions_take n).factor) fun _ _ located => located.ne_nil
  case callOrGroup =>
    exact .of_settles
      (fun le ts allows => (expressions_settle le).callOrGroup ts (allows.mono (by decide)))
      (fun n => (expressions_take n).callOrGroup) fun _ _ located => located.ne_nil
  case callee =>
    exact .of_settles
      (fun le ts allows => (expressions_settle le).callee ts (allows.mono (by decide)))
      (fun n => (expressions_take n).callee) fun _ _ located => located.ne_nil
  case decorated =>
    exact .of_settles (fun _ ts _ => decorated_settles ts) (fun _ => decorated_takes)
      fun _ _ located => located.ne_nil
  case expression =>
    exact .of_settles
      (fun le ts allows => expression_settles le ts (allows.mono (by decide))) expression_takes
      fun _ _ located => located.ne_nil
  case condition =>
    exact .of_settles
      (fun le ts allows => condition_settles le ts (allows.mono (by decide))) condition_takes
      fun _ _ located => located.ne_nil
  case iterator =>
    exact .of_settles
      (fun le ts allows => iterator_settles le ts (allows.mono (by decide))) iterator_takes
      fun _ _ located => located.ne_nil
  case assignOrRun =>
    exact .of_settles
      (fun le ts allows => assignOrRun_settles le ts (allows.mono (by decide))) assignOrRun_takes
      fun _ _ located => located.ne_nil
  case giveBack =>
    exact .of_settles
      (fun le ts allows => giveBack_settles le ts (allows.mono (by decide))) giveBack_takes
      fun _ _ located => located.ne_nil
  case statement =>
    exact .of_settles (fun le => (statements_settle le).statement)
      (fun n => (statements_take n).statement) fun _ _ located => located.ne_nil
  case block =>
    exact .of_settles
      (fun le ts allows => (statements_settle le).block ts (allows.mono (by decide)))
      (fun n => (statements_take n).block) fun _ _ located => located.block_ne_nil
  case param =>
    exact .of_settles
      (fun le ts allows => param_settles le ts (allows.mono (by decide))) param_takes fun _ _ => id
  case function =>
    exact .of_settles
      (fun le ts allows => function_settles le ts (allows.mono (by decide))) function_takes
      fun _ _ located => located.ne_nil

end Rightflow.Parser
