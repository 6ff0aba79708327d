import Rightflow.Grammar.Expression
import Rightflow.Proofs.BareTrees
import Rightflow.Proofs.Parsing

/-!
# What derives an expression

`ExprText` is the grammar of expressions, tier by tier.  It derives bare trees, since the forms of
the tokens say nothing about where these stand.
-/

namespace Rightflow

/-! ## The grammar -/

/-- The kinds of expression.  Whatever is called is one of the last. -/
inductive Tier where
  | level (l : Level)
  | unary
  | factor
  | parenthesized
  | callee

namespace Level

/-- The operators of a level. -/
def operators : Level → List (Symbol × BinaryOp)
  | .or => [(.or, .or)]
  | .and => [(.and, .and)]
  | .comparison =>
    [(.less, .less), (.greater, .greater), (.atMost, .atMost), (.atLeast, .atLeast),
     (.equal, .equal), (.unequal, .unequal)]
  | .additive => [(.plus, .add), (.minus, .sub)]
  | .multiplicative => [(.times, .mul), (.divide, .div)]

/-- What stands behind an operator of a level. -/
def operands : Level → Tier
  | .or => .level .and
  | .and => .level .comparison
  | .comparison => .level .additive
  | .additive => .level .multiplicative
  | .multiplicative => .unary

/-- What stands before an operator of a level: the same level, but for comparisons. -/
def leading (l : Level) : Tier := if l.chains then .level l else l.operands

end Level

/-- The operators before an operand. -/
def prefixes : List (Symbol × UnaryOp) := [(.minus, .negate), (.not, .not)]

/-- The forms of a name or of a decoration. -/
inductive NameText : List Form → Expr → Prop where
  | name (x : String) : NameText [.name x] (.name x .start)
  | decorated (x y : String) :
      NameText [.name x, .symbol .decorate, .name y]
        (.binary .decorate (.name x .start) (.name y .start) .start)

/-- The forms of an expression of each kind. -/
inductive ExprText : Tier → List Form → Expr → Prop where
  | operand {l : Level} {fs : List Form} {e : Expr} (text : ExprText l.operands fs e) :
      ExprText (.level l) fs e
  | binary {l : Level} {s : Symbol} {op : BinaryOp} {fs gs : List Form} {left right : Expr}
      (operator : (s, op) ∈ l.operators) (first : ExprText l.leading fs left)
      (second : ExprText l.operands gs right) :
      ExprText (.level l) (fs ++ .symbol s :: gs) (.binary op left right .start)
  | factor {fs : List Form} {e : Expr} (text : ExprText .factor fs e) : ExprText .unary fs e
  | unary {s : Symbol} {op : UnaryOp} {fs : List Form} {e : Expr} (operator : (s, op) ∈ prefixes)
      (text : ExprText .unary fs e) : ExprText .unary (.symbol s :: fs) (.unary op e .start)
  | literal (value : Literal) : ExprText .factor [.literal value] (.literal value .start)
  | named {fs : List Form} {e : Expr} (text : NameText fs e) : ExprText .factor fs e
  | parenthesized {fs : List Form} {e : Expr} (text : ExprText .parenthesized fs e) :
      ExprText .factor fs e
  | group {fs : List Form} {e : Expr} (text : ExprText (.level .or) fs e) :
      ExprText .parenthesized (.symbol .leftParen :: (fs ++ [.symbol .rightParen])) e
  | bind {args : List (List Form × Expr)} {fs : List Form} {callee : Expr}
      (given : ∀ arg ∈ args, ExprText (.level .or) arg.1 arg.2) (text : NameText fs callee) :
      ExprText .parenthesized
        (.symbol .leftParen :: (commaSeparated (args.map (·.1)) ++
          .symbol .rightParen :: .symbol .bindFront :: fs))
        (.bind callee (args.map (·.2)) .start)
  | call {args : List (List Form × Expr)} {fs : List Form} {callee : Expr}
      (given : ∀ arg ∈ args, ExprText (.level .or) arg.1 arg.2)
      (text : ExprText .callee fs callee) :
      ExprText .parenthesized
        (.symbol .leftParen :: (commaSeparated (args.map (·.1)) ++
          .symbol .rightParen :: .symbol .call :: fs))
        (.call callee (args.map (·.2)) .start)
  | calledName {fs : List Form} {e : Expr} (text : NameText fs e) : ExprText .callee fs e
  | called {fs : List Form} {e : Expr} (text : ExprText .parenthesized fs e) :
      ExprText .callee fs e

theorem Level.op?_eq_some {l : Level} {f : Form} {op : BinaryOp} :
    l.op? f = some op ↔ ∃ s, f = .symbol s ∧ (s, op) ∈ l.operators := by
  cases f with
  | symbol s =>
    cases s <;> cases l <;>
      simp [op?, operators, Form.binaryOp?, Option.filter, BinaryOp.level?, eq_comm]
  | keyword | name | literal | comment | finish => simp [op?, Form.binaryOp?]

theorem Form.unaryOp?_eq_some {f : Form} {op : UnaryOp} :
    f.unaryOp? = some op ↔ ∃ s, f = .symbol s ∧ (s, op) ∈ prefixes := by
  cases f with
  | symbol s => cases s <;> simp [unaryOp?, prefixes, eq_comm]
  | keyword | name | literal | comment | finish => simp [unaryOp?]

theorem ExprText.of_leading {l : Level} {fs : List Form} {e : Expr}
    (text : ExprText l.leading fs e) : ExprText (.level l) fs e := by
  cases l with
  | comparison => exact .operand text
  | or | and | additive | multiplicative => exact text

theorem ExprText.leading {l : Level} {fs : List Form} {e : Expr} (text : ExprText l.operands fs e) :
    ExprText l.leading fs e := by
  cases l with
  | comparison => exact text
  | or | and | additive | multiplicative => exact .operand text

/-! ## What may follow -/

/-- How tight a form holds on to an expression before it. -/
def Form.grip : Form → Nat
  | .symbol .or => 1
  | .symbol .and => 2
  | .symbol .less | .symbol .greater | .symbol .atMost | .symbol .atLeast | .symbol .equal
  | .symbol .unequal => 3
  | .symbol .plus | .symbol .minus => 4
  | .symbol .times | .symbol .divide => 5
  | .symbol .decorate | .symbol .call | .symbol .bindFront => 6
  | _ => 0

def Level.rank : Level → Nat
  | .or => 1
  | .and => 2
  | .comparison => 3
  | .additive => 4
  | .multiplicative => 5

/-- How tight an expression of a kind holds together: a form with less grip ends it. -/
def Tier.rank : Tier → Nat
  | .level l => l.rank
  | .unary | .factor | .parenthesized | .callee => 6

theorem Form.ne_of_grip {f g : Form} (loose : f.grip < g.grip) : f ≠ g := by
  rintro rfl
  omega

theorem Level.operands_rank (l : Level) : l.operands.rank = l.rank + 1 := by
  cases l <;> rfl

theorem Level.grip_of_mem_operators {l : Level} {s : Symbol} {op : BinaryOp}
    (operator : (s, op) ∈ l.operators) : (Form.symbol s).grip = l.rank := by
  cases l <;> simp [operators] at operator <;> grind [Form.grip, Level.rank]

theorem Level.op?_eq_none {l : Level} {f : Form} (loose : f.grip < l.rank) : l.op? f = none := by
  cases found : l.op? f with
  | none => rfl
  | some op =>
    obtain ⟨s, rfl, operator⟩ := Level.op?_eq_some.1 found
    rw [Level.grip_of_mem_operators operator] at loose
    omega

/-! ## What comes first -/

/-- How many kinds of expression a form can lead, from the loosest on. -/
def Form.lead : Form → Nat
  | .symbol .minus | .symbol .not => 1
  | .literal _ => 2
  | .name _ => 3
  | .symbol .leftParen => 4
  | _ => 0

/-- The lead that the first form of an expression has at least. -/
def Tier.lead : Tier → Nat
  | .level _ | .unary => 1
  | .factor => 2
  | .callee => 3
  | .parenthesized => 4

theorem NameText.ahead_eq {fs : List Form} {e : Expr} (text : NameText fs e) (rest : List Form) :
    ∃ x, ahead (fs ++ rest) = .name x := by
  cases text with
  | name x => exact ⟨x, rfl⟩
  | decorated x y => exact ⟨x, rfl⟩

theorem Tier.lead_pos (tier : Tier) : 1 ≤ tier.lead := by
  cases tier <;> simp [lead]

theorem ExprText.lead {tier : Tier} {fs : List Form} {e : Expr} (text : ExprText tier fs e)
    (rest : List Form) : tier.lead ≤ (ahead (fs ++ rest)).lead := by
  induction text generalizing rest with
  | operand text ih => exact Nat.le_trans (Tier.lead_pos _) (ih rest)
  | binary operator first second ihFirst ihSecond =>
    rw [List.append_assoc]
    exact Nat.le_trans (Tier.lead_pos _) (ihFirst _)
  | factor text ih => exact Nat.le_trans (Tier.lead_pos _) (ih rest)
  | unary operator text ih =>
    simp only [prefixes, List.mem_cons, Prod.mk.injEq, List.not_mem_nil, or_false] at operator
    obtain ⟨rfl, rfl⟩ | ⟨rfl, rfl⟩ := operator <;> simp [Form.lead, Tier.lead]
  | literal value => simp [Form.lead, Tier.lead]
  | named text | calledName text =>
    obtain ⟨x, front⟩ := text.ahead_eq rest
    simp [front, Form.lead, Tier.lead]
  | parenthesized text ih | called text ih =>
    have first := ih rest
    simp only [Tier.lead] at first ⊢
    omega
  | group text ih | bind given text ih | call given text ihGiven ih => simp [Form.lead, Tier.lead]

/-- Nothing that leads an operand is an operator before one. -/
theorem Form.unaryOp?_eq_none {f : Form} (narrow : 2 ≤ f.lead) : f.unaryOp? = none := by
  unfold unaryOp?
  split <;> simp [lead] at narrow ⊢

theorem ExprText.ahead_eq_leftParen {fs : List Form} {e : Expr}
    (text : ExprText .parenthesized fs e) (rest : List Form) :
    ahead (fs ++ rest) = .symbol .leftParen := by
  cases text <;> rfl

theorem ExprText.ne_nil {tier : Tier} {fs : List Form} {e : Expr} (text : ExprText tier fs e) :
    fs ≠ [] := by
  rintro rfl
  have first := text.lead []
  have pos := tier.lead_pos
  simp only [List.append_nil, ahead_nil, Form.lead] at first
  omega

/-- How deep the grammar descends from a kind of expression until it takes a token. -/
def Tier.descent : Tier → Nat
  | .level l => 15 - 2 * l.rank
  | .unary => 3
  | .factor | .callee => 2
  | .parenthesized => 1

theorem Tier.descent_pos (tier : Tier) : 0 < tier.descent := by
  cases tier with
  | level l => cases l <;> decide
  | unary | factor | parenthesized | callee => decide

theorem Level.operands_descent (l : Level) :
    (Tier.level l).descent = l.operands.descent + 2 := by
  cases l <;> rfl

/-- A factor is an expression of every level. -/
theorem ExprText.ofFactor {fs : List Form} {e : Expr} (text : ExprText .factor fs e) :
    ExprText (.level .or) fs e :=
  .operand (.operand (.operand (.operand (.operand (.factor text)))))

namespace Parser

/-! ## Soundness -/

/-- Every expression that the parser answers is derived by the forms that it takes. -/
def Derives (p : Parser Expr) (tier : Tier) : Prop :=
  ∀ tokens, Yields p tokens fun fs e => ExprText tier fs e.bare

theorem decorated_yields (tokens : List Token) :
    Yields decorated tokens fun fs e => NameText fs e.bare := by
  apply Yields.identifier
  intro x _ rest
  dsimp only
  apply Yields.accept
  · intro rest'
    apply Yields.identifier
    intro y _ _
    exact .pure (.decorated x y)
  · exact .pure (.name x)

theorem ungroup_yields (position : Position) (args : List Expr) (tokens : List Token) :
    Yields (ungroup position args) tokens fun fs e => fs = [] ∧ args = [e] := by
  unfold ungroup
  split
  next e => exact .pure ⟨rfl, rfl⟩
  next => exact .fail _ _

/-- What the parsers of expressions with one bound accept.  Operators go on with what has been read
before them. -/
structure ExpressionsYield (n : Nat) : Prop where
  level : ∀ l, Derives (level n l) (.level l)
  operand : ∀ l, Derives (operand n l) l.operands
  further : ∀ l left before tokens, ExprText l.leading before left.bare →
    Yields (furtherOperands n l left) tokens fun fs e => ExprText (.level l) (before ++ fs) e.bare
  unary : Derives (unary n) .unary
  factor : Derives (factor n) .factor
  callOrGroup : Derives (callOrGroup n) .parenthesized
  callee : Derives (callee n) .callee

section

variable {n : Nat} (ih : ExpressionsYield n)

include ih

theorem level_succ_yields (l : Level) : Derives (level (n + 1) l) (.level l) := by
  intro tokens
  apply (ih.operand l tokens).bind
  intro left before rest text
  exact ih.further l left before rest text.leading

theorem operand_succ_yields (l : Level) : Derives (operand (n + 1) l) l.operands := by
  cases l with
  | or => exact ih.level .and
  | and => exact ih.level .comparison
  | comparison => exact ih.level .additive
  | additive => exact ih.level .multiplicative
  | multiplicative => exact ih.unary

theorem furtherOperands_succ_yields (l : Level) (left : Expr) (before : List Form)
    (tokens : List Token) (first : ExprText l.leading before left.bare) :
    Yields (furtherOperands (n + 1) l left) tokens fun fs e =>
      ExprText (.level l) (before ++ fs) e.bare := by
  apply Yields.peek
  split
  next => exact .pure (by simpa using first.of_leading)
  next op isOperator =>
    apply Yields.next
    rintro t rest rfl
    obtain ⟨s, spelled, operator⟩ := Level.op?_eq_some.1 isOperator
    apply (ih.operand l rest).bind
    intro right fs rest' second
    have whole : ExprText (.level l) (before ++ t.form :: fs)
        (Expr.binary op left right left.position).bare := by
      rw [show t.form = .symbol s from spelled]
      exact .binary operator first second
    -- A chain goes on with the whole as its left operand; a comparison stands alone.
    split
    next chains =>
      have next := ih.further l _ _ rest' (by rw [Level.leading, if_pos chains]; exact whole)
      simpa using next
    next => exact .pure (by simpa using whole)

theorem unary_succ_yields : Derives (unary (n + 1)) .unary := by
  intro tokens
  apply Yields.peek
  split
  next =>
    apply (ih.factor tokens).mono
    intro fs e _ text
    exact .factor text
  next op isOperator =>
    apply Yields.next
    rintro t rest rfl
    obtain ⟨s, spelled, operator⟩ := Form.unaryOp?_eq_some.1 isOperator
    apply (ih.unary rest).bind
    intro e fs _ text
    rw [show t.form = .symbol s from spelled]
    exact .pure (by simpa using .unary operator text)

theorem factor_succ_yields : Derives (factor (n + 1)) .factor := by
  intro tokens
  apply Yields.peek
  split
  next value isLiteral =>
    apply Yields.next
    rintro t rest rfl
    rw [show t.form = .literal value from isLiteral]
    exact .pure (.literal value)
  next =>
    apply (decorated_yields tokens).mono
    intro fs e _ text
    exact .named text
  next =>
    apply (ih.callOrGroup tokens).mono
    intro fs e _ text
    exact .parenthesized text
  next =>
    apply Yields.next
    intro t rest _
    exact .fail _ _

theorem callOrGroup_succ_yields : Derives (callOrGroup (n + 1)) .parenthesized := by
  intro tokens
  apply Yields.expect
  intro position rest
  apply (list_yields Expr.bare n (ih.level .or)).bind
  rintro args _ rest' ⟨parts, given, rfl, seen⟩
  apply Yields.accept
  · intro rest''
    apply (decorated_yields rest'').bind
    intro callee fs _ text
    exact .pure (by simpa [Expr.bare, seen] using .bind given text)
  apply Yields.accept
  · intro rest''
    apply (ih.callee rest'').bind
    intro callee fs _ text
    exact .pure (by simpa [Expr.bare, seen] using .call given text)
  apply (ungroup_yields position args rest').mono
  rintro _ e _ ⟨rfl, rfl⟩
  obtain ⟨part, rfl, same⟩ := List.map_eq_singleton_iff.1 seen.symm
  simpa [same] using ExprText.group (given part (by simp))

theorem callee_succ_yields : Derives (callee (n + 1)) .callee := by
  intro tokens
  apply Yields.peek
  split
  next =>
    apply (ih.callOrGroup tokens).mono
    intro fs e _ text
    exact .called text
  next =>
    apply (decorated_yields tokens).mono
    intro fs e _ text
    exact .calledName text

end

theorem expressions_yield (n : Nat) : ExpressionsYield n := by
  induction n with
  | zero =>
    exact ⟨fun _ _ => .exhausted, fun _ _ => .exhausted, fun _ _ _ _ _ => .exhausted,
      fun _ => .exhausted, fun _ => .exhausted, fun _ => .exhausted, fun _ => .exhausted⟩
  | succ n ih =>
    exact ⟨level_succ_yields ih, operand_succ_yields ih, furtherOperands_succ_yields ih,
      unary_succ_yields ih, factor_succ_yields ih, callOrGroup_succ_yields ih,
      callee_succ_yields ih⟩

/-! ## Completeness -/

/-- The parser of a kind of expression. -/
def tierParser : Tier → Nat → Parser Expr
  | .level l, n => level n l
  | .unary, n => unary n
  | .factor, n => factor n
  | .parenthesized, n => callOrGroup n
  | .callee, n => callee n

/-- The parser of a kind takes the forms, whatever ends them. -/
def Accepts (tier : Tier) (fs : List Form) (e : Expr) : Prop :=
  ∀ n rest, depth * fs.length + tier.descent ≤ n → (ahead rest).grip < tier.rank →
    Reads (tierParser tier n) fs rest (·.bare = e)

/-- The parser of a level takes the forms as the first operands, whatever operators of the level
follow. -/
def Begins (l : Level) (fs : List Form) (e : Expr) : Prop :=
  ∀ n gs rest P, depth * fs.length + (Tier.level l).descent ≤ n →
    (ahead (gs ++ rest)).grip ≤ l.rank →
    (∀ m left, n ≤ m + fs.length → left.bare = e → Reads (furtherOperands m l left) gs rest P) →
    Reads (level n l) (fs ++ gs) rest P

/-- A parser of expressions goes on with a smaller bound than its own, which is never the last. -/
theorem Accepts.of_succ {tier : Tier} {fs : List Form} {e : Expr}
    (reads : ∀ n rest, depth * fs.length + tier.descent ≤ n + 1 →
      (ahead rest).grip < tier.rank → Reads (tierParser tier (n + 1)) fs rest (·.bare = e)) :
    Accepts tier fs e := by
  intro n rest enough ends
  have pos := tier.descent_pos
  obtain ⟨n, rfl⟩ : ∃ m, n = m + 1 := ⟨n - 1, by omega⟩
  exact reads n rest enough ends

theorem operand_run {n : Nat} (l : Level) : operand (n + 1) l = tierParser l.operands n := by
  cases l <;> rfl

theorem furtherOperands_stops {n : Nat} {l : Level} {left : Expr} {e : Expr} {rest : List Form}
    (seen : left.bare = e) (ends : (ahead rest).grip < l.rank) :
    Reads (furtherOperands (n + 1) l left) [] rest (·.bare = e) := by
  apply Reads.peek
  rw [List.nil_append, Level.op?_eq_none ends]
  exact .pure seen

/-- One operator and its right operand are taken. -/
theorem furtherOperands_step {n : Nat} {l : Level} {s : Symbol} {op : BinaryOp}
    {before left right : Expr} {gs hs rest : List Form} {P : Expr → Prop}
    (operator : (s, op) ∈ l.operators) (seen : before.bare = left)
    (second : Accepts l.operands gs right)
    (enough : depth * gs.length + l.operands.descent < n)
    (loose : (ahead (hs ++ rest)).grip ≤ l.rank)
    (further : ∀ whole : Expr, whole.bare = .binary op left right .start →
      Reads (if l.chains then furtherOperands n l whole else pure whole) hs rest P) :
    Reads (furtherOperands (n + 1) l before) (.symbol s :: (gs ++ hs)) rest P := by
  obtain ⟨m, rfl⟩ : ∃ m, n = m + 1 := ⟨n - 1, by omega⟩
  apply Reads.peek
  simp only [List.cons_append, ahead_cons, Level.op?_eq_some.2 ⟨s, rfl, operator⟩]
  apply Reads.next
  intro _ _
  rw [operand_run]
  apply Reads.bind (second m _ (by omega) (by rw [Level.operands_rank]; omega))
  intro after seen'
  exact further _ (by rw [Expr.bare, seen, seen'])

theorem Accepts.begins {l : Level} {fs : List Form} {e : Expr} (accepts : Accepts l.operands fs e)
    (nonempty : fs ≠ []) : Begins l fs e := by
  intro n gs rest P enough loose further
  have descent := Level.operands_descent l
  have length := List.length_pos_of_ne_nil nonempty
  obtain ⟨m, rfl⟩ : ∃ m, n = m + 2 := ⟨n - 2, by omega⟩
  rw [level, operand_run]
  apply Reads.bind (accepts m _ (by omega) (by rw [Level.operands_rank]; omega))
  intro left seen
  exact further (m + 1) left (by omega) seen

theorem Begins.accepts {l : Level} {fs : List Form} {e : Expr} (begins : Begins l fs e) :
    Accepts (.level l) fs e := by
  intro n rest enough ends
  rw [← List.append_nil fs]
  apply begins n [] rest _ enough (Nat.le_of_lt ends)
  intro m left within seen
  have descent := Level.operands_descent l
  obtain ⟨m, rfl⟩ : ∃ k, m = k + 1 := ⟨m - 1, by simp only [depth] at enough; omega⟩
  exact furtherOperands_stops seen ends

theorem Begins.binary {l : Level} {s : Symbol} {op : BinaryOp} {left right : Expr}
    {fs gs : List Form} (chains : l.chains = true) (operator : (s, op) ∈ l.operators)
    (first : Begins l fs left) (second : Accepts l.operands gs right) :
    Begins l (fs ++ .symbol s :: gs) (.binary op left right .start) := by
  intro n hs rest P enough loose further
  have descent := Level.operands_descent l
  simp only [depth, List.length_append, List.length_cons] at enough further
  rw [List.append_assoc, List.cons_append]
  apply first n _ rest P (by simp only [depth]; omega)
  · simp [Level.grip_of_mem_operators operator]
  intro m before within seen
  obtain ⟨m, rfl⟩ : ∃ k, m = k + 1 := ⟨m - 1, by omega⟩
  apply furtherOperands_step operator seen second (by simp only [depth]; omega) loose
  intro whole seen'
  rw [if_pos chains]
  exact further m whole (by omega) seen'

theorem Accepts.comparison {l : Level} {s : Symbol} {op : BinaryOp} {left right : Expr}
    {fs gs : List Form} (single : l.chains = false) (operator : (s, op) ∈ l.operators)
    (first : Accepts l.operands fs left) (second : Accepts l.operands gs right) :
    Accepts (.level l) (fs ++ .symbol s :: gs) (.binary op left right .start) := by
  intro n rest enough ends
  have descent := Level.operands_descent l
  simp only [depth, List.length_append, List.length_cons] at enough
  obtain ⟨m, rfl⟩ : ∃ m, n = m + 2 := ⟨n - 2, by omega⟩
  rw [tierParser, level, operand_run]
  apply Reads.bind (first m _ (by simp only [depth]; omega) ?_)
  · intro before seen
    rw [← List.append_nil gs]
    have loose : (ahead ([] ++ rest)).grip ≤ l.rank := Nat.le_of_lt ends
    apply furtherOperands_step operator seen second (by simp only [depth]; omega) loose
    intro whole seen'
    simp only [single]
    exact .pure seen'
  · rw [Level.operands_rank]
    simp [Level.grip_of_mem_operators operator]

theorem decorated_reads {fs rest : List Form} {e : Expr} (text : NameText fs e)
    (ends : (ahead rest).grip < 6) : Reads decorated fs rest (·.bare = e) := by
  cases text with
  | name x =>
    apply Reads.identifier
    intro _
    apply Reads.accept_absent
    · exact Form.ne_of_grip ends
    · exact .pure rfl
  | decorated x y =>
    apply Reads.identifier
    intro _
    apply Reads.accept_found
    apply Reads.identifier
    intro _
    exact .pure rfl

section Parentheses

variable {args : List (List Form × Expr)} {n : Nat}

/-- A list in parentheses is taken, and what follows on it comes next. -/
theorem arguments_read {k : List Expr → Parser Expr} {fs rest : List Form} {P : Expr → Prop}
    (given : ∀ arg ∈ args, ExprText (.level .or) arg.1 arg.2)
    (accepts : ∀ arg ∈ args, Accepts (.level .or) arg.1 arg.2)
    (enough : depth * ((commaSeparated (args.map (·.1))).length + 1) ≤ n)
    (further : ∀ es : List Expr, es.map Expr.bare = args.map (·.2) → Reads (k es) fs rest P) :
    Reads (list (level n .or) .rightParen n >>= k)
      (commaSeparated (args.map (·.1)) ++ .symbol .rightParen :: fs) rest P := by
  rw [List.append_cons]
  simp only [depth, length_commaSeparated, List.length_map] at enough
  apply Reads.bind (P := fun es => es.map Expr.bare = args.map (·.2))
  · apply list_reads Expr.bare
    · simp
    · omega
    -- No expression begins with the parenthesis that closes the list.
    · intro arg mem left closes
      have first := (given arg mem).lead left
      simp [closes, Form.lead, Tier.lead] at first
    · intro arg mem left follows
      have shorter := length_le_of_mem_flatten (List.mem_map_of_mem (f := (·.1)) mem)
      apply accepts arg mem n left
      · simp only [depth, Tier.descent, Level.rank]
        omega
      · obtain comma | closing := follows <;> simp [*, Form.grip, Tier.rank, Level.rank]
  · exact further

theorem Accepts.group {fs : List Form} {e : Expr} (text : ExprText (.level .or) fs e)
    (accepts : Accepts (.level .or) fs e) :
    Accepts .parenthesized (.symbol .leftParen :: (fs ++ [.symbol .rightParen])) e := by
  apply Accepts.of_succ
  intro n rest enough ends
  simp only [depth, Tier.descent, List.length_cons, List.length_append] at enough
  apply Reads.expect
  intro position
  have single : commaSeparated ([(fs, e)].map (·.1)) = fs := by simp
  rw [← single]
  apply arguments_read (by simpa using text) (by simpa using accepts)
    (by simp only [depth, single]; omega)
  intro es seen
  apply Reads.accept_absent
  · exact Form.ne_of_grip ends
  apply Reads.accept_absent
  · exact Form.ne_of_grip ends
  obtain ⟨e', rfl, same⟩ := List.map_eq_singleton_iff.1 seen
  exact .pure same

theorem Accepts.bind {fs : List Form} {callee : Expr}
    (given : ∀ arg ∈ args, ExprText (.level .or) arg.1 arg.2)
    (accepts : ∀ arg ∈ args, Accepts (.level .or) arg.1 arg.2) (text : NameText fs callee) :
    Accepts .parenthesized
      (.symbol .leftParen :: (commaSeparated (args.map (·.1)) ++
        .symbol .rightParen :: .symbol .bindFront :: fs))
      (.bind callee (args.map (·.2)) .start) := by
  apply Accepts.of_succ
  intro n rest enough ends
  simp only [depth, Tier.descent, List.length_cons, List.length_append] at enough
  apply Reads.expect
  intro position
  apply arguments_read given accepts (by simp only [depth]; omega)
  intro es seen
  apply Reads.accept_found
  apply (decorated_reads text ends).bind_pure
  intro target seen'
  rw [Expr.bare, Expr.bareAll_eq_map, seen, seen']

theorem Accepts.call {fs : List Form} {callee : Expr}
    (given : ∀ arg ∈ args, ExprText (.level .or) arg.1 arg.2)
    (accepts : ∀ arg ∈ args, Accepts (.level .or) arg.1 arg.2)
    (target : Accepts .callee fs callee) :
    Accepts .parenthesized
      (.symbol .leftParen :: (commaSeparated (args.map (·.1)) ++
        .symbol .rightParen :: .symbol .call :: fs))
      (.call callee (args.map (·.2)) .start) := by
  apply Accepts.of_succ
  intro n rest enough ends
  simp only [depth, Tier.descent, List.length_cons, List.length_append] at enough
  apply Reads.expect
  intro position
  apply arguments_read given accepts (by simp only [depth]; omega)
  intro es seen
  apply Reads.accept_absent
  · simp
  apply Reads.accept_found
  -- What is called reaches to the end of the call, so the same forms end both.
  apply (target n rest (by simp only [depth, Tier.descent]; omega) ends).bind_pure
  intro callee' seen'
  rw [Expr.bare, Expr.bareAll_eq_map, seen, seen']

end Parentheses

section Tiers

variable {fs : List Form} {e : Expr}

theorem Accepts.factor (text : ExprText .factor fs e) (accepts : Accepts .factor fs e) :
    Accepts .unary fs e := by
  apply Accepts.of_succ
  intro n rest enough ends
  apply Reads.peek
  rw [Form.unaryOp?_eq_none (text.lead rest)]
  exact accepts n rest (by simp only [Tier.descent] at enough ⊢; omega) ends

theorem Accepts.unary {s : Symbol} {op : UnaryOp} (operator : (s, op) ∈ prefixes)
    (accepts : Accepts .unary fs e) : Accepts .unary (.symbol s :: fs) (.unary op e .start) := by
  apply Accepts.of_succ
  intro n rest enough ends
  simp only [depth, Tier.descent, List.length_cons] at enough
  apply Reads.peek
  simp only [List.cons_append, ahead_cons, Form.unaryOp?_eq_some.2 ⟨s, rfl, operator⟩]
  apply Reads.next
  intro t _
  apply (accepts n rest (by simp only [depth, Tier.descent]; omega) ends).bind_pure
  intro e' seen
  rw [Expr.bare, seen]

theorem Accepts.literal (value : Literal) :
    Accepts .factor [.literal value] (.literal value .start) := by
  apply Accepts.of_succ
  intro n rest enough ends
  apply Reads.peek
  apply Reads.next
  intro t _
  exact .pure rfl

theorem Accepts.named (text : NameText fs e) : Accepts .factor fs e := by
  apply Accepts.of_succ
  intro n rest enough ends
  obtain ⟨x, front⟩ := text.ahead_eq rest
  apply Reads.peek
  rw [front]
  exact decorated_reads text ends

theorem Accepts.calledName (text : NameText fs e) : Accepts .callee fs e := by
  apply Accepts.of_succ
  intro n rest enough ends
  obtain ⟨x, front⟩ := text.ahead_eq rest
  apply Reads.peek
  rw [front]
  exact decorated_reads text ends

theorem Accepts.parenthesized (text : ExprText .parenthesized fs e)
    (accepts : Accepts .parenthesized fs e) : Accepts .factor fs e := by
  apply Accepts.of_succ
  intro n rest enough ends
  simp only [Tier.descent] at enough
  apply Reads.peek
  rw [text.ahead_eq_leftParen]
  exact accepts n rest (by simp only [Tier.descent]; omega) ends

theorem Accepts.called (text : ExprText .parenthesized fs e)
    (accepts : Accepts .parenthesized fs e) : Accepts .callee fs e := by
  apply Accepts.of_succ
  intro n rest enough ends
  simp only [Tier.descent] at enough
  apply Reads.peek
  rw [text.ahead_eq_leftParen]
  exact accepts n rest (by simp only [Tier.descent]; omega) ends

end Tiers

/-- Every kind of expression is accepted, and the left operands of a level are accepted as such. -/
theorem accepts_and_begins {tier : Tier} {fs : List Form} {e : Expr} (text : ExprText tier fs e) :
    Accepts tier fs e ∧ ∀ l, tier = .level l → l.chains = true → Begins l fs e := by
  -- The next operator of a chain ends its left operand, but not the level that this belongs to.  So
  -- `Accepts` alone says nothing about left operands, and the induction carries `Begins` beside it.
  induction text with
  | operand text ih =>
    have begins := ih.1.begins text.ne_nil
    exact ⟨begins.accepts, by rintro _ ⟨⟩ _; exact begins⟩
  | @binary l s op fs gs left right operator first second ihFirst ihSecond =>
    by_cases chains : l.chains = true
    · have leading := ihFirst.2 l (by rw [Level.leading, if_pos chains]) chains
      have begins := leading.binary chains operator ihSecond.1
      exact ⟨begins.accepts, by rintro _ ⟨⟩ _; exact begins⟩
    · have leading : Accepts l.operands fs left := by
        simpa [Level.leading, chains] using ihFirst.1
      have single : l.chains = false := by simpa using chains
      exact ⟨leading.comparison single operator ihSecond.1, by rintro _ ⟨⟩ c; exact absurd c chains⟩
  | factor text ih => exact ⟨.factor text ih.1, nofun⟩
  | unary operator text ih => exact ⟨.unary operator ih.1, nofun⟩
  | literal value => exact ⟨.literal value, nofun⟩
  | named text => exact ⟨.named text, nofun⟩
  | parenthesized text ih => exact ⟨.parenthesized text ih.1, nofun⟩
  | group text ih => exact ⟨.group text ih.1, nofun⟩
  | bind given text ih => exact ⟨.bind given (fun arg mem => (ih arg mem).1) text, nofun⟩
  | call given text ihGiven ih =>
    exact ⟨.call given (fun arg mem => (ihGiven arg mem).1) ih.1, nofun⟩
  | calledName text => exact ⟨.calledName text, nofun⟩
  | called text ih => exact ⟨.called text ih.1, nofun⟩

end Parser

end Rightflow
