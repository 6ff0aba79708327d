import Rightflow.Proofs.Lookahead
import Rightflow.Proofs.ProgramGrammar

/-!
# Trees and the tokens they stand for

`ExprAt`, `StmtAt` and `ProgramAt` are the grammar once more, over tokens and not over their forms:
each node has a stretch of tokens as its text, and stands where this text begins.  A function or a
statement stands at the first token of its text (`firstPosition`).  An expression stands at the
first one that is not the parenthesis of a group (`leadPosition`), and so does a loop's header that
names a variable.

The parsers answer trees that are located in this way at the tokens they take
(`expressions_take`, `statements_take`, `program_takes`).
-/

namespace Rightflow

/-! ## Where an expression begins -/

/-- What stands behind the parenthesis that closes the outermost one of `n + 1` that are open. -/
def behindClosing : Nat → List Form → List Form
  | _, [] => []
  | n, .symbol .leftParen :: fs => behindClosing (n + 1) fs
  | 0, .symbol .rightParen :: fs => fs
  | n + 1, .symbol .rightParen :: fs => behindClosing n fs
  | n, _ :: fs => behindClosing n fs

/-- Whether a form gives a list in parentheses before it to something. -/
def Form.givesList : Form → Bool
  | .symbol .call | .symbol .bindFront => true
  | _ => false

/-- Whether a parenthesis with these forms behind it opens a group, and not a list that is given to
something. -/
def opensGroup (fs : List Form) : Bool := !(ahead (behindClosing 0 fs)).givesList

/-- The position of the first token that is not the parenthesis of a group. -/
def leadPosition : List Token → Position
  | [] => .start
  | t :: tokens =>
    if t.form = .symbol .leftParen ∧ opensGroup (forms tokens) then leadPosition tokens
    else t.position

/-- Forms in which every parenthesis is closed. -/
def Balanced (fs : List Form) : Prop :=
  ∀ n rest, behindClosing n (fs ++ rest) = behindClosing n rest

namespace Balanced

variable {fs gs : List Form}

theorem nil : Balanced [] := fun _ _ => rfl

theorem append (first : Balanced fs) (second : Balanced gs) : Balanced (fs ++ gs) := by
  intro n rest
  rw [List.append_assoc, first, second]

theorem cons {f : Form} (opens : f ≠ .symbol .leftParen) (closes : f ≠ .symbol .rightParen)
    (further : Balanced fs) : Balanced (f :: fs) := by
  intro n rest
  rw [List.cons_append, behindClosing, further]
  all_goals simp_all

theorem parentheses (inner : Balanced fs) :
    Balanced (.symbol .leftParen :: (fs ++ [.symbol .rightParen])) := by
  intro n rest
  rw [List.cons_append, List.append_assoc, behindClosing, inner]
  rfl

theorem commaSeparated {stretches : List (List Form)} (each : ∀ fs ∈ stretches, Balanced fs) :
    Balanced (commaSeparated stretches) := by
  induction stretches with
  | nil => exact nil
  | cons fs further inductionHypothesis =>
    obtain ⟨first, others⟩ := List.forall_mem_cons.1 each
    cases further with
    | nil => simpa using first
    | cons gs further =>
      rw [commaSeparated_cons fs (by simp)]
      exact first.append (cons (by simp) (by simp) (inductionHypothesis others))

end Balanced

theorem Level.ne_parentheses {l : Level} {s : Symbol} {op : BinaryOp}
    (operator : (s, op) ∈ l.operators) : s ≠ .leftParen ∧ s ≠ .rightParen := by
  cases l <;> simp [operators] at operator <;> grind

/-- Every parenthesis of an expression is closed in it. -/
theorem NameText.balanced {fs : List Form} {e : Expr} (text : NameText fs e) : Balanced fs := by
  cases text with
  | name => exact .cons (by simp) (by simp) .nil
  | decorated =>
    exact .cons (by simp) (by simp) (.cons (by simp) (by simp) (.cons (by simp) (by simp) .nil))

theorem ExprText.balanced {tier : Tier} {fs : List Form} {e : Expr} (text : ExprText tier fs e) :
    Balanced fs := by
  induction text with
  | operand text ih | factor text ih | parenthesized text ih | called text ih => exact ih
  | binary operator first second ihFirst ihSecond =>
    obtain ⟨opens, closes⟩ := Level.ne_parentheses operator
    exact ihFirst.append (.cons (by simpa using opens) (by simpa using closes) ihSecond)
  | unary operator text ih =>
    simp only [prefixes, List.mem_cons, Prod.mk.injEq, List.not_mem_nil, or_false] at operator
    obtain ⟨rfl, rfl⟩ | ⟨rfl, rfl⟩ := operator <;> exact .cons (by simp) (by simp) ih
  | literal => exact .cons (by simp) (by simp) .nil
  | named text | calledName text => exact text.balanced
  | group text ih => exact .parentheses ih
  | bind given text ih =>
    have given : Balanced (commaSeparated _) := .commaSeparated (List.forall_mem_map.2 ih)
    have callee : Balanced (.symbol .bindFront :: _) := .cons (by simp) (by simp) text.balanced
    simpa using given.parentheses.append callee
  | call given text ihGiven ih =>
    have given : Balanced (commaSeparated _) := .commaSeparated (List.forall_mem_map.2 ihGiven)
    have callee : Balanced (.symbol .call :: _) := .cons (by simp) (by simp) ih
    simpa using given.parentheses.append callee

/-! ## Expressions -/

/-- The tokens of a name or of a decoration. -/
inductive NameAt : List Token → Expr → Prop where
  | name {t : Token} {x : String} (spelled : t.form = .name x) :
      NameAt [t] (.name x (leadPosition [t]))
  | decorated {t a u : Token} {x y : String} (left : t.form = .name x)
      (decorates : a.form = .symbol .decorate) (right : u.form = .name y) :
      NameAt [t, a, u]
        (.binary .decorate (.name x (leadPosition [t])) (.name y (leadPosition [u]))
          (leadPosition [t, a, u]))

/-- The tokens of an expression of each kind, which stands where its text begins.  An operator
stands where its left operand does. -/
inductive ExprAt : Tier → List Token → Expr → Prop where
  | operand {l : Level} {ts : List Token} {e : Expr} (text : ExprAt l.operands ts e) :
      ExprAt (.level l) ts e
  | binary {l : Level} {s : Symbol} {op : BinaryOp} {t : Token} {ts us : List Token}
      {left right : Expr} (operator : (s, op) ∈ l.operators) (spelled : t.form = .symbol s)
      (first : ExprAt l.leading ts left) (second : ExprAt l.operands us right)
      (begins : left.position = leadPosition (ts ++ t :: us)) :
      ExprAt (.level l) (ts ++ t :: us)
        (.binary op left right (leadPosition (ts ++ t :: us)))
  | factor {ts : List Token} {e : Expr} (text : ExprAt .factor ts e) : ExprAt .unary ts e
  | unary {s : Symbol} {op : UnaryOp} {t : Token} {ts : List Token} {e : Expr}
      (operator : (s, op) ∈ prefixes) (spelled : t.form = .symbol s) (text : ExprAt .unary ts e) :
      ExprAt .unary (t :: ts) (.unary op e (leadPosition (t :: ts)))
  | literal {t : Token} {value : Literal} (spelled : t.form = .literal value) :
      ExprAt .factor [t] (.literal value (leadPosition [t]))
  | named {ts : List Token} {e : Expr} (text : NameAt ts e) : ExprAt .factor ts e
  | parenthesized {ts : List Token} {e : Expr} (text : ExprAt .parenthesized ts e) :
      ExprAt .factor ts e
  | group {o c : Token} {ts : List Token} {e : Expr} (opens : o.form = .symbol .leftParen)
      (text : ExprAt (.level .or) ts e) (closes : c.form = .symbol .rightParen) :
      ExprAt .parenthesized (o :: (ts ++ [c])) e
  | bind {o c b : Token} {args : List (List Token × Expr)} {ts us : List Token} {callee : Expr}
      (opens : o.form = .symbol .leftParen)
      (given : ∀ arg ∈ args, ExprAt (.level .or) arg.1 arg.2)
      (between : CommasBetween (args.map (·.1)) ts) (closes : c.form = .symbol .rightParen)
      (binds : b.form = .symbol .bindFront) (text : NameAt us callee) :
      ExprAt .parenthesized (o :: (ts ++ c :: b :: us))
        (.bind callee (args.map (·.2)) (leadPosition (o :: (ts ++ c :: b :: us))))
  | call {o c b : Token} {args : List (List Token × Expr)} {ts us : List Token} {callee : Expr}
      (opens : o.form = .symbol .leftParen)
      (given : ∀ arg ∈ args, ExprAt (.level .or) arg.1 arg.2)
      (between : CommasBetween (args.map (·.1)) ts) (closes : c.form = .symbol .rightParen)
      (calls : b.form = .symbol .call) (text : ExprAt .callee us callee) :
      ExprAt .parenthesized (o :: (ts ++ c :: b :: us))
        (.call callee (args.map (·.2)) (leadPosition (o :: (ts ++ c :: b :: us))))
  | calledName {ts : List Token} {e : Expr} (text : NameAt ts e) : ExprAt .callee ts e
  | called {ts : List Token} {e : Expr} (text : ExprAt .parenthesized ts e) : ExprAt .callee ts e

theorem NameAt.text {ts : List Token} {e : Expr} (located : NameAt ts e) :
    NameText (forms ts) e.bare := by
  cases located with
  | name spelled =>
    rw [forms_cons, spelled]
    exact .name _
  | decorated left decorates right =>
    simp only [forms_cons, left, decorates, right]
    exact .decorated _ _

/-- The forms of the tokens derive the expression. -/
theorem ExprAt.text {tier : Tier} {ts : List Token} {e : Expr} (located : ExprAt tier ts e) :
    ExprText tier (forms ts) e.bare := by
  induction located with
  | operand text ih => exact .operand ih
  | binary operator spelled first second begins ihFirst ihSecond =>
    rw [forms_append, forms_cons, spelled]
    exact .binary operator ihFirst ihSecond
  | factor text ih => exact .factor ih
  | unary operator spelled text ih =>
    rw [forms_cons, spelled]
    exact .unary operator ih
  | literal spelled =>
    rw [forms_cons, spelled]
    exact .literal _
  | named text => exact .named text.text
  | parenthesized text ih => exact .parenthesized ih
  | group opens text closes ih =>
    rw [forms_cons, forms_append, forms_cons, opens, closes]
    exact .group ih
  | @bind o c b args ts us callee opens given between closes binds text ih =>
    have given' : ∀ arg ∈ args.map fun arg => (forms arg.1, arg.2.bare),
        ExprText (.level .or) arg.1 arg.2 := List.forall_mem_map.2 ih
    rw [forms_cons, forms_append, forms_cons, forms_cons, opens, closes, binds, between.forms_eq]
    simpa [Expr.bare, Function.comp_def] using ExprText.bind given' text.text
  | @call o c b args ts us callee opens given between closes calls text ihGiven ih =>
    have given' : ∀ arg ∈ args.map fun arg => (forms arg.1, arg.2.bare),
        ExprText (.level .or) arg.1 arg.2 := List.forall_mem_map.2 ihGiven
    rw [forms_cons, forms_append, forms_cons, forms_cons, opens, closes, calls, between.forms_eq]
    simpa [Expr.bare, Function.comp_def] using ExprText.call given' ih
  | calledName text => exact .calledName text.text
  | called text ih => exact .called ih

theorem ExprAt.ne_nil {tier : Tier} {ts : List Token} {e : Expr} (located : ExprAt tier ts e) :
    ts ≠ [] :=
  fun none => located.text.ne_nil (forms_eq_nil.2 none)

theorem ExprAt.of_leading {l : Level} {ts : List Token} {e : Expr}
    (located : ExprAt l.leading ts e) : ExprAt (.level l) ts e := by
  cases l with
  | comparison => exact .operand located
  | or | and | additive | multiplicative => exact located

theorem ExprAt.leading {l : Level} {ts : List Token} {e : Expr} (located : ExprAt l.operands ts e) :
    ExprAt l.leading ts e := by
  cases l with
  | comparison => exact located
  | or | and | additive | multiplicative => exact .operand located

/-- A factor is an expression of every level. -/
theorem ExprAt.ofFactor {ts : List Token} {e : Expr} (located : ExprAt .factor ts e) :
    ExprAt (.level .or) ts e :=
  .operand (.operand (.operand (.operand (.operand (.factor located)))))

theorem NameAt.ne_nil {ts : List Token} {e : Expr} (located : NameAt ts e) : ts ≠ [] := by
  cases located <;> simp

section Lead

variable {o c b t : Token} {ts rest : List Token}

theorem leadPosition_cons (other : t.form ≠ .symbol .leftParen) (rest : List Token) :
    leadPosition (t :: rest) = t.position :=
  if_neg fun both => other both.1

theorem leadPosition_name {x : String} (named : t.form = .name x) (rest : List Token) :
    leadPosition (t :: rest) = t.position :=
  leadPosition_cons (by simp [named]) rest

theorem leadPosition_literal {value : Literal} (spelled : t.form = .literal value)
    (rest : List Token) : leadPosition (t :: rest) = t.position :=
  leadPosition_cons (by simp [spelled]) rest

theorem leadPosition_unary {s : Symbol} {op : UnaryOp} (operator : (s, op) ∈ prefixes)
    (spelled : t.form = .symbol s) (rest : List Token) :
    leadPosition (t :: rest) = t.position := by
  refine leadPosition_cons ?_ rest
  rw [spelled]
  rintro ⟨⟩
  simp [prefixes] at operator

theorem behindClosing_parentheses (inner : Balanced (forms ts))
    (closes : c.form = .symbol .rightParen) (rest : List Token) :
    behindClosing 0 (forms (ts ++ c :: rest)) = forms rest := by
  rw [forms_append, inner, forms_cons, closes]
  rfl

theorem leadPosition_group (opens : o.form = .symbol .leftParen) (inner : Balanced (forms ts))
    (closes : c.form = .symbol .rightParen) (ends : (ahead (forms rest)).givesList = false) :
    leadPosition (o :: (ts ++ c :: rest)) = leadPosition (ts ++ c :: rest) := by
  refine if_pos ⟨opens, ?_⟩
  rw [opensGroup, behindClosing_parentheses inner closes, ends]
  rfl

theorem leadPosition_list (inner : Balanced (forms ts)) (closes : c.form = .symbol .rightParen)
    (gives : b.form.givesList = true) (rest : List Token) :
    leadPosition (o :: (ts ++ c :: b :: rest)) = o.position := by
  refine if_neg fun group => ?_
  rw [opensGroup, behindClosing_parentheses inner closes, forms_cons, ahead_cons, gives] at group
  exact absurd group.2 nofun

end Lead

theorem Level.givesList_eq_false {l : Level} {s : Symbol} {op : BinaryOp}
    (operator : (s, op) ∈ l.operators) : (Form.symbol s).givesList = false := by
  cases s <;> first | rfl | cases l <;> simp [operators] at operator

theorem NameAt.lead {ts : List Token} {e : Expr} (located : NameAt ts e) (rest : List Token) :
    leadPosition (ts ++ rest) = e.position := by
  cases located with
  | name named | decorated named decorates right =>
    exact (leadPosition_name named _).trans (leadPosition_name named _).symm

theorem arguments_balanced {args : List (List Token × Expr)} {ts : List Token}
    (given : ∀ arg ∈ args, ExprAt (.level .or) arg.1 arg.2)
    (between : CommasBetween (args.map (·.1)) ts) : Balanced (forms ts) := by
  rw [between.forms_eq, List.map_map]
  exact .commaSeparated (List.forall_mem_map.2 fun arg mem => (given arg mem).text.balanced)

/-- Whatever stands behind its text, an expression stands at the first token that is not the
parenthesis of a group, unless the text is given to something. -/
theorem ExprAt.lead {tier : Tier} {ts : List Token} {e : Expr} (located : ExprAt tier ts e)
    (rest : List Token) (ends : (ahead (forms rest)).givesList = false) :
    leadPosition (ts ++ rest) = e.position := by
  induction located generalizing rest with
  | operand text ih | factor text ih | parenthesized text ih | called text ih => exact ih rest ends
  | @binary l s op t ts us left right operator spelled first second begins ihFirst ihSecond =>
    -- Behind the left operand stands the operator, so a list there is not one that is passed.
    have goes : (ahead (forms (t :: (us ++ rest)))).givesList = false := by
      rw [forms_cons, ahead_cons, spelled]
      exact Level.givesList_eq_false operator
    rw [List.append_assoc, List.cons_append, ihFirst (t :: (us ++ rest)) goes, begins]
    rfl
  | unary operator spelled text ih =>
    exact (leadPosition_unary operator spelled _).trans
      (leadPosition_unary operator spelled _).symm
  | literal spelled =>
    exact (leadPosition_literal spelled _).trans (leadPosition_literal spelled _).symm
  | named text | calledName text => exact text.lead rest
  | @group o c ts e opens text closes ih =>
    have inner := ih (c :: rest) (by simp [closes, Form.givesList])
    rw [List.cons_append, List.append_assoc, List.singleton_append,
      leadPosition_group opens text.text.balanced closes ends, inner]
  | @bind o c b args ts us callee opens given between closes binds text ih =>
    have inner := arguments_balanced given between
    have gives : b.form.givesList = true := by rw [binds]; rfl
    rw [List.cons_append, List.append_assoc]
    exact (leadPosition_list inner closes gives _).trans
      (leadPosition_list inner closes gives _).symm
  | @call o c b args ts us callee opens given between closes calls text ihGiven ih =>
    have inner := arguments_balanced given between
    have gives : b.form.givesList = true := by rw [calls]; rfl
    rw [List.cons_append, List.append_assoc]
    exact (leadPosition_list inner closes gives _).trans
      (leadPosition_list inner closes gives _).symm

/-- An expression stands where its text begins. -/
theorem ExprAt.position_eq {tier : Tier} {ts : List Token} {e : Expr} (located : ExprAt tier ts e) :
    e.position = leadPosition ts := by
  have lead := located.lead [] rfl
  rw [List.append_nil] at lead
  exact lead.symm

/-! ## Statements -/

/-- The tokens of a condition in parentheses. -/
inductive ConditionAt : List Token → Expr → Prop where
  | parentheses {o c : Token} {ts : List Token} {e : Expr} (opens : o.form = .symbol .leftParen)
      (text : ExprAt (.level .or) ts e) (closes : c.form = .symbol .rightParen) :
      ConditionAt (o :: (ts ++ [c])) e

/-- The tokens of an assignment. -/
inductive AssignAt : List Token → Assignment → Prop where
  | assign {ts us : List Token} {e : Expr} {t? : Option Ty} {x : String}
      (value : ExprAt (.level .or) ts e) (target : TargetText (forms us) t? x) :
      AssignAt (ts ++ us) ⟨e, t?, x, firstPosition (ts ++ us)⟩

/-- The tokens that begin the header of a loop.  A header that names a variable stands where the
name does, whatever the parentheses around it. -/
inductive IteratorAt : List Token → Iterator → Prop where
  | assign {ts : List Token} {a : Assignment} (text : AssignAt ts a) : IteratorAt ts (.assign a)
  | existing {s : Token} {ts : List Token} {x : String} {p : Position}
      (text : ExprAt (.level .or) ts (.name x p)) (ends : s.form = .symbol .semicolon) :
      IteratorAt (ts ++ [s]) (.existing x (leadPosition (ts ++ [s])))

/-- The tokens of a statement, of the branches behind a condition, and of a block. -/
inductive StmtAt : List Token → Phrase → Prop where
  | assign {ts : List Token} {a : Assignment} (text : AssignAt ts a) :
      StmtAt ts (.statement (.assign a))
  | run {s : Token} {ts : List Token} {e : Expr} (text : ExprAt (.level .or) ts e)
      (ends : s.form = .symbol .semicolon) :
      StmtAt (ts ++ [s]) (.statement (.run e (firstPosition (ts ++ [s]))))
  | giveBack {k s : Token} {ts : List Token} {e : Expr} (keyword : k.form = .keyword .giveBack)
      (text : ExprAt (.level .or) ts e) (ends : s.form = .symbol .semicolon) :
      StmtAt (k :: (ts ++ [s])) (.statement (.giveBack e (firstPosition (k :: (ts ++ [s])))))
  | branch {k : Token} {cs bs os : List Token} {cond : Expr} {body : Block} {further : Otherwise}
      (keyword : k.form = .keyword .ifBranch) (condition : ConditionAt cs cond)
      (block : StmtAt bs (.block body)) (branches : StmtAt os (.otherwise further)) :
      StmtAt (k :: (cs ++ (bs ++ os)))
        (.statement (.branch cond body further (firstPosition (k :: (cs ++ (bs ++ os))))))
  | whileLoop {k : Token} {cs bs : List Token} {cond : Expr} {body : Block}
      (keyword : k.form = .keyword .whileLoop) (condition : ConditionAt cs cond)
      (block : StmtAt bs (.block body)) :
      StmtAt (k :: (cs ++ bs))
        (.statement (.whileLoop cond body (firstPosition (k :: (cs ++ bs)))))
  | forLoop {k o c a s : Token} {hs cs bs us : List Token} {iter : Iterator} {cond onIter : Expr}
      {body : Block} (keyword : k.form = .keyword .forLoop) (opens : o.form = .symbol .leftParen)
      (header : IteratorAt hs iter) (condition : ExprAt (.level .or) cs cond)
      (closes : c.form = .symbol .rightParen) (block : StmtAt bs (.block body))
      (calls : a.form = .symbol .call) (callee : ExprAt .callee us onIter)
      (ends : s.form = .symbol .semicolon) :
      StmtAt (k :: o :: (hs ++ (cs ++ c :: (bs ++ a :: (us ++ [s])))))
        (.statement (.forLoop iter cond body onIter
          (firstPosition (k :: o :: (hs ++ (cs ++ c :: (bs ++ a :: (us ++ [s]))))))))
  | nothing : StmtAt [] (.otherwise .nothing)
  | elif {k : Token} {cs bs os : List Token} {cond : Expr} {body : Block} {further : Otherwise}
      (keyword : k.form = .keyword .elifBranch) (condition : ConditionAt cs cond)
      (block : StmtAt bs (.block body)) (branches : StmtAt os (.otherwise further)) :
      StmtAt (k :: (cs ++ (bs ++ os)))
        (.otherwise (.elif cond body further (firstPosition (k :: (cs ++ (bs ++ os))))))
  | otherwise {k : Token} {bs : List Token} {body : Block} (keyword : k.form = .keyword .elseBranch)
      (block : StmtAt bs (.block body)) :
      StmtAt (k :: bs) (.otherwise (.block body (firstPosition (k :: bs))))
  | block {o c : Token} {parts : List (List Token × Stmt)} (opens : o.form = .symbol .leftBrace)
      (statements : ∀ part ∈ parts, StmtAt part.1 (.statement part.2))
      (closes : c.form = .symbol .rightBrace) :
      StmtAt (o :: ((parts.map (·.1)).flatten ++ [c])) (.block (parts.map (·.2)))

/-! ## Functions and programs -/

/-- The tokens of a function. -/
inductive FunctionAt : List Token → Function → Prop where
  | function {n : Token} {ts ps bs : List Token} {ret : Ty} {name : String} {params : List Param}
      {body : Block} (returned : TypeText (forms ts) ret) (named : n.form = .name name)
      (parameters : ParametersText (forms ps) params) (block : StmtAt bs (.block body)) :
      FunctionAt (ts ++ n :: (ps ++ bs))
        ⟨name, ret, params, body, firstPosition (ts ++ n :: (ps ++ bs))⟩

/-- The tokens of a program up to the end of its text. -/
inductive ProgramAt : List Token → Program → Prop where
  | program {last : Token} {parts : List (List Token × Function)}
      (functions : ∀ part ∈ parts, FunctionAt part.1 part.2) (ends : last.form = .finish) :
      ProgramAt ((parts.map (·.1)).flatten ++ [last]) (parts.map (·.2))

/-! ### The forms of their texts -/

theorem ConditionAt.text {ts : List Token} {e : Expr} (located : ConditionAt ts e) :
    ∃ cs, ExprText (.level .or) cs e.bare ∧
      forms ts = .symbol .leftParen :: (cs ++ [.symbol .rightParen]) := by
  cases located with
  | parentheses opens text closes =>
    exact ⟨_, text.text, by rw [forms_cons, forms_append, forms_cons, opens, closes]; rfl⟩

theorem AssignAt.text {ts : List Token} {a : Assignment} (located : AssignAt ts a) :
    AssignText (forms ts) a.bare := by
  cases located with
  | assign value target =>
    rw [forms_append]
    exact .assign value.text target

theorem IteratorAt.text {ts : List Token} {iter : Iterator} (located : IteratorAt ts iter) :
    IteratorText (forms ts) iter.bare := by
  cases located with
  | assign text => exact .assign text.text
  | existing text ends =>
    rw [forms_append, forms_cons, ends]
    exact .existing (text.text.enclosed rfl)

theorem StmtAt.text {ts : List Token} {phrase : Phrase} (located : StmtAt ts phrase) :
    StmtText (forms ts) phrase.bare := by
  induction located with
  | assign text => exact .assign text.text
  | run text ends =>
    rw [forms_append, forms_cons, ends]
    exact .run text.text
  | giveBack keyword text ends =>
    rw [forms_cons, forms_append, forms_cons, keyword, ends]
    exact .giveBack text.text
  | branch keyword condition block branches ihBlock ihBranches =>
    obtain ⟨cs, text, split⟩ := condition.text
    rw [forms_cons, forms_append, forms_append, keyword, split]
    simpa [Phrase.bare, Stmt.bare] using StmtText.branch text ihBlock ihBranches
  | whileLoop keyword condition block ihBlock =>
    obtain ⟨cs, text, split⟩ := condition.text
    rw [forms_cons, forms_append, keyword, split]
    simpa [Phrase.bare, Stmt.bare] using StmtText.whileLoop text ihBlock
  | forLoop keyword opens header condition closes block calls callee ends ihBlock =>
    simp only [forms_cons, forms_append, forms_nil, keyword, opens, closes, calls, ends]
    simpa [Phrase.bare, Stmt.bare] using
      StmtText.forLoop header.text condition.text ihBlock callee.text
  | nothing => exact .nothing
  | elif keyword condition block branches ihBlock ihBranches =>
    obtain ⟨cs, text, split⟩ := condition.text
    rw [forms_cons, forms_append, forms_append, keyword, split]
    simpa [Phrase.bare, Otherwise.bare] using StmtText.elif text ihBlock ihBranches
  | otherwise keyword block ihBlock =>
    rw [forms_cons, keyword]
    simpa [Phrase.bare, Otherwise.bare] using StmtText.otherwise ihBlock
  | @block o c parts opens statements closes ih =>
    have texts : ∀ part ∈ parts.map fun part => (forms part.1, part.2.bare),
        StmtText part.1 (.statement part.2) := List.forall_mem_map.2 ih
    rw [forms_cons, forms_append, forms_cons, opens, closes]
    simpa [Phrase.bare, forms, Function.comp_def, List.map_flatten] using StmtText.block texts

theorem FunctionAt.text {ts : List Token} {f : Function} (located : FunctionAt ts f) :
    FunctionText (forms ts) f.bare := by
  cases located with
  | function returned named parameters block =>
    simp only [forms_append, forms_cons, named]
    exact .function returned _ parameters block.text

/-- The forms of the tokens derive the program. -/
theorem ProgramAt.text {ts : List Token} {p : Program} (located : ProgramAt ts p) :
    ProgramText (forms ts) p.bare := by
  cases located with
  | @program last parts functions ends =>
    have texts : ∀ part ∈ parts.map fun part => (forms part.1, part.2.bare),
        FunctionText part.1 part.2 :=
      List.forall_mem_map.2 fun part mem => (functions part mem).text
    rw [forms_append, forms_cons, ends]
    simpa [Program.bare, forms, Function.comp_def, List.map_flatten] using ProgramText.program texts

theorem ConditionAt.ne_nil {ts : List Token} {e : Expr} (located : ConditionAt ts e) : ts ≠ [] := by
  cases located
  simp

theorem IteratorAt.ne_nil {ts : List Token} {iter : Iterator} (located : IteratorAt ts iter) :
    ts ≠ [] := by
  cases located with
  | assign text =>
    cases text with
    | assign value target => exact List.append_ne_nil_of_left_ne_nil value.ne_nil _
  | existing text ends => exact List.append_ne_nil_of_left_ne_nil text.ne_nil _

theorem StmtAt.ne_nil {ts : List Token} {s : Stmt} (located : StmtAt ts (.statement s)) :
    ts ≠ [] := by
  rintro rfl
  exact absurd located.text.length_pos (by simp)

theorem StmtAt.block_ne_nil {ts : List Token} {body : Block} (located : StmtAt ts (.block body)) :
    ts ≠ [] := by
  cases located
  simp

theorem FunctionAt.ne_nil {ts : List Token} {f : Function} (located : FunctionAt ts f) :
    ts ≠ [] := by
  cases located
  simp

end Rightflow
