import Rightflow.Grammar.Statement
import Rightflow.Proofs.ExpressionGrammar
import Rightflow.Proofs.TypeGrammar

/-!
# What derives a statement

`StmtText` is the grammar of statements, blocks and branches.  The parser of statements takes what
derives one (`statements_yield`), and it takes all of that unless a branch follows that would belong
to it (`statement_accepts`).
-/

namespace Rightflow

/-! ## The grammar -/

/-- The forms behind a value that is assigned. -/
inductive TargetText : List Form → Option Ty → String → Prop where
  | existing (x : String) :
      TargetText [.symbol .assign, .name x, .symbol .semicolon] none x
  | declared {fs : List Form} {t : Ty} (text : TypeText fs t) (x : String) :
      TargetText (.symbol .assign :: (fs ++ [.name x, .symbol .semicolon])) (some t) x

/-- The forms of an assignment. -/
inductive AssignText : List Form → Assignment → Prop where
  | assign {fs gs : List Form} {e : Expr} {t? : Option Ty} {x : String}
      (value : ExprText (.level .or) fs e) (target : TargetText gs t? x) :
      AssignText (fs ++ gs) ⟨e, t?, x, .start⟩

/-- The forms of a name, possibly in parentheses. -/
inductive Enclosed (x : String) : List Form → Prop where
  | name : Enclosed x [.name x]
  | parentheses {fs : List Form} (text : Enclosed x fs) :
      Enclosed x (.symbol .leftParen :: (fs ++ [.symbol .rightParen]))

/-- The forms that begin the header of a loop. -/
inductive IteratorText : List Form → Iterator → Prop where
  | assign {fs : List Form} {a : Assignment} (text : AssignText fs a) : IteratorText fs (.assign a)
  | existing {fs : List Form} {x : String} (text : Enclosed x fs) :
      IteratorText (fs ++ [.symbol .semicolon]) (.existing x .start)

/-- What the grammar of statements speaks of. -/
inductive Phrase where
  | statement (s : Stmt)
  | otherwise (o : Otherwise)
  | block (body : Block)

def Phrase.bare : Phrase → Phrase
  | .statement s => .statement s.bare
  | .otherwise o => .otherwise o.bare
  | .block body => .block (Stmt.bareAll body)

/-- The forms of a statement, of the branches behind a condition, and of a block. -/
inductive StmtText : List Form → Phrase → Prop where
  | assign {fs : List Form} {a : Assignment} (text : AssignText fs a) :
      StmtText fs (.statement (.assign a))
  | run {fs : List Form} {e : Expr} (text : ExprText (.level .or) fs e) :
      StmtText (fs ++ [.symbol .semicolon]) (.statement (.run e .start))
  | giveBack {fs : List Form} {e : Expr} (text : ExprText (.level .or) fs e) :
      StmtText (.keyword .giveBack :: (fs ++ [.symbol .semicolon]))
        (.statement (.giveBack e .start))
  | branch {cs bs os : List Form} {cond : Expr} {body : Block} {further : Otherwise}
      (condition : ExprText (.level .or) cs cond) (block : StmtText bs (.block body))
      (branches : StmtText os (.otherwise further)) :
      StmtText
        (.keyword .ifBranch :: .symbol .leftParen :: (cs ++ .symbol .rightParen :: (bs ++ os)))
        (.statement (.branch cond body further .start))
  | whileLoop {cs bs : List Form} {cond : Expr} {body : Block}
      (condition : ExprText (.level .or) cs cond) (block : StmtText bs (.block body)) :
      StmtText (.keyword .whileLoop :: .symbol .leftParen :: (cs ++ .symbol .rightParen :: bs))
        (.statement (.whileLoop cond body .start))
  | forLoop {hs cs bs fs : List Form} {iter : Iterator} {cond onIter : Expr} {body : Block}
      (header : IteratorText hs iter) (condition : ExprText (.level .or) cs cond)
      (block : StmtText bs (.block body)) (callee : ExprText .callee fs onIter) :
      StmtText
        (.keyword .forLoop :: .symbol .leftParen :: (hs ++ (cs ++ .symbol .rightParen ::
          (bs ++ .symbol .call :: (fs ++ [.symbol .semicolon])))))
        (.statement (.forLoop iter cond body onIter .start))
  | nothing : StmtText [] (.otherwise .nothing)
  | elif {cs bs os : List Form} {cond : Expr} {body : Block} {further : Otherwise}
      (condition : ExprText (.level .or) cs cond) (block : StmtText bs (.block body))
      (branches : StmtText os (.otherwise further)) :
      StmtText
        (.keyword .elifBranch :: .symbol .leftParen :: (cs ++ .symbol .rightParen :: (bs ++ os)))
        (.otherwise (.elif cond body further .start))
  | otherwise {bs : List Form} {body : Block} (block : StmtText bs (.block body)) :
      StmtText (.keyword .elseBranch :: bs) (.otherwise (.block body .start))
  | block {parts : List (List Form × Stmt)}
      (statements : ∀ part ∈ parts, StmtText part.1 (.statement part.2)) :
      StmtText (.symbol .leftBrace :: ((parts.map (·.1)).flatten ++ [.symbol .rightBrace]))
        (.block (parts.map (·.2)))

/-- What derives a name is the name, whatever the parentheses around it. -/
theorem ExprText.enclosed {tier : Tier} {fs : List Form} {e : Expr} (text : ExprText tier fs e) :
    ∀ {x : String}, e = .name x .start → Enclosed x fs := by
  induction text with
  | operand text ih | factor text ih | parenthesized text ih | called text ih => exact ih
  | binary | unary | literal | bind | call => exact nofun
  | named text | calledName text =>
    cases text with
    | name x => rintro _ ⟨⟩; exact .name
    | decorated => exact nofun
  | group text ih => exact fun same => .parentheses (ih same)

theorem Enclosed.text {x : String} {fs : List Form} (enclosed : Enclosed x fs) :
    ExprText (.level .or) fs (.name x .start) := by
  induction enclosed with
  | name => exact .ofFactor (.named (.name x))
  | parentheses text ih => exact .ofFactor (.parenthesized (.group ih))

/-! ## What comes first and what may follow -/

/-- Whether a form can begin a statement. -/
def Form.opensStatement : Form → Bool
  | .keyword .ifBranch | .keyword .whileLoop | .keyword .forLoop | .keyword .giveBack => true
  | f => 1 ≤ f.lead

theorem Form.opensStatement_of_lead {f : Form} (leads : 1 ≤ f.lead) : f.opensStatement = true := by
  unfold opensStatement
  split <;> simp [leads]

theorem TargetText.ahead_eq {gs : List Form} {t? : Option Ty} {x : String}
    (text : TargetText gs t? x) (rest : List Form) : ahead (gs ++ rest) = .symbol .assign := by
  cases text <;> rfl

theorem TargetText.length_pos {gs : List Form} {t? : Option Ty} {x : String}
    (text : TargetText gs t? x) : 0 < gs.length := by
  cases text <;> simp

theorem AssignText.lead {fs : List Form} {a : Assignment} (text : AssignText fs a)
    (rest : List Form) : 1 ≤ (ahead (fs ++ rest)).lead := by
  cases text with
  | assign value target =>
    rw [List.append_assoc]
    exact value.lead _

theorem StmtText.opens {fs : List Form} {s : Stmt} (text : StmtText fs (.statement s))
    (rest : List Form) : (ahead (fs ++ rest)).opensStatement = true := by
  cases text with
  | assign text => exact Form.opensStatement_of_lead (text.lead rest)
  | run text =>
    rw [List.append_assoc]
    exact Form.opensStatement_of_lead (text.lead _)
  | giveBack | branch | whileLoop | forLoop => rfl

theorem StmtText.length_pos {fs : List Form} {s : Stmt} (text : StmtText fs (.statement s)) :
    0 < fs.length := by
  apply List.length_pos_of_ne_nil
  rintro rfl
  exact absurd (text.opens []) (by decide)

/-- The form does not go on with the branches of a condition. -/
def Form.endsBranches (f : Form) : Prop :=
  f ≠ .keyword .elifBranch ∧ f ≠ .keyword .elseBranch

theorem Form.endsBranches_of_opensStatement {f : Form} (opens : f.opensStatement = true) :
    f.endsBranches := by
  constructor <;> rintro rfl <;> exact absurd opens (by decide)

namespace Parser

/-! ## Soundness -/

theorem condition_yields (n : Nat) (tokens : List Token) :
    Yields (condition n) tokens fun fs e => ∃ cs, ExprText (.level .or) cs e.bare ∧
      fs = .symbol .leftParen :: (cs ++ [.symbol .rightParen]) := by
  apply Yields.expect
  intro _ rest
  apply ((expressions_yield n).level .or rest).bind
  intro e cs rest' text
  apply Yields.expect
  intro _ _
  exact .pure ⟨cs, text, rfl⟩

theorem assignmentTail_yields (n : Nat) (value : Expr) (position : Position) (tokens : List Token) :
    Yields (assignmentTail n value position) tokens fun gs a =>
      a.value = value ∧ TargetText gs a.declared? a.name := by
  apply Yields.expect
  intro _ rest
  apply Yields.peek
  dsimp only
  split
  next =>
    rw [map_eq_pure_bind, bind_assoc]
    apply ((types_yield n).type rest).bind
    intro t fs rest' text
    rw [pure_bind]
    apply Yields.identifier
    intro x _ _
    apply Yields.expect
    intro _ _
    exact .pure ⟨rfl, .declared text x⟩
  next =>
    rw [pure_bind]
    apply Yields.identifier
    intro x _ _
    apply Yields.expect
    intro _ _
    exact .pure ⟨rfl, .existing x⟩

/-- What begins with an expression is an assignment, or it goes on in another way. -/
theorem assignmentOr_yields {α : Type} {n : Nat} {answer : Assignment → α}
    {k : Position → Expr → Parser α} {Q : List Form → α → Prop} (tokens : List Token)
    (assigned : ∀ fs (a : Assignment), AssignText fs a.bare → Q fs (answer a))
    (other : ∀ position fs (e : Expr) rest, ExprText (.level .or) fs e.bare →
      Yields (k position e) rest fun gs => Q (fs ++ gs)) :
    Yields (do
      let position ← peekPosition
      let e ← expression n
      if (← peek) = .symbol .assign then return answer (← assignmentTail n e position)
      else k position e) tokens Q := by
  apply Yields.peekPosition
  intro position
  apply ((expressions_yield n).level .or tokens).bind
  intro e fs rest text
  apply Yields.peek
  split
  next =>
    apply (assignmentTail_yields n e position rest).bind
    rintro ⟨value, t?, x, _⟩ gs _ ⟨rfl, target⟩
    exact .pure (by simpa using assigned _ ⟨value, t?, x, _⟩ (.assign text target))
  next => exact other position fs e rest text

theorem iterator_yields (n : Nat) (tokens : List Token) :
    Yields (iterator n) tokens fun fs iter => IteratorText fs iter.bare := by
  apply assignmentOr_yields tokens fun fs a => .assign
  intro position fs e rest text
  apply Yields.next
  intro t _ _
  split
  next x _ =>
    split
    next closed =>
      rw [closed]
      exact .pure (.existing (text.enclosed rfl))
    next => exact .unexpected t _
  next => exact .unexpected t _

theorem assignOrRun_yields (n : Nat) (tokens : List Token) :
    Yields (assignOrRun n) tokens fun fs s => StmtText fs (.statement s.bare) := by
  apply assignmentOr_yields tokens fun fs a => .assign
  intro position fs e rest text
  apply Yields.next
  intro t _ _
  split
  next closed =>
    rw [closed]
    exact .pure (.run text)
  next => exact .unexpected t _

theorem giveBack_yields (n : Nat) (tokens : List Token) :
    Yields (giveBack n) tokens fun fs s => StmtText fs (.statement s.bare) := by
  apply Yields.expect
  intro position rest
  apply ((expressions_yield n).level .or rest).bind
  intro e fs rest' text
  apply Yields.expect
  intro _ _
  exact .pure (.giveBack text)

/-- What the parsers of statements with one bound accept. -/
structure StatementsYield (n : Nat) : Prop where
  statement : ∀ tokens, Yields (statement n) tokens fun fs s => StmtText fs (.statement s.bare)
  otherwise : ∀ tokens, Yields (otherwise n) tokens fun fs o => StmtText fs (.otherwise o.bare)
  block : ∀ tokens, Yields (block n) tokens fun fs body =>
    StmtText fs (.block (Stmt.bareAll body))
  statements : ∀ tokens, Yields (statements n) tokens fun fs body =>
    ∃ parts : List (List Form × Stmt), (∀ part ∈ parts, StmtText part.1 (.statement part.2)) ∧
      fs = (parts.map (·.1)).flatten ∧ body.map Stmt.bare = parts.map (·.2)

section

variable {n : Nat} (ih : StatementsYield n)

include ih

/-- A condition, a block and the branches behind it. -/
theorem conditional_yields {α : Type} {answer : Expr → Block → Otherwise → α}
    {Q : List Form → α → Prop} (tokens : List Token)
    (derives : ∀ cs bs os (cond : Expr) body (further : Otherwise),
      ExprText (.level .or) cs cond.bare → StmtText bs (.block (Stmt.bareAll body)) →
      StmtText os (.otherwise further.bare) →
      Q (.symbol .leftParen :: (cs ++ .symbol .rightParen :: (bs ++ os)))
        (answer cond body further)) :
    Yields (do
      let cond ← condition n
      let body ← block n
      return answer cond body (← otherwise n)) tokens Q := by
  apply (condition_yields n tokens).bind
  rintro cond _ rest ⟨cs, condition, rfl⟩
  apply (ih.block rest).bind
  intro body bs rest block
  apply (ih.otherwise rest).bind
  intro further os _ branches
  exact .pure (by simpa using derives cs bs os cond body further condition block branches)

theorem statement_succ_yields (tokens : List Token) :
    Yields (Parser.statement (n + 1)) tokens fun fs s => StmtText fs (.statement s.bare) := by
  apply Yields.peek
  split
  next =>
    apply Yields.expect
    intro position rest
    apply conditional_yields ih rest
    intro cs bs os cond body further condition block branches
    exact .branch condition block branches
  next =>
    apply Yields.expect
    intro position rest
    apply (condition_yields n rest).bind
    rintro cond _ rest ⟨cs, condition, rfl⟩
    apply (ih.block rest).bind
    intro body bs _ block
    exact .pure (by simpa using .whileLoop condition block)
  next =>
    apply Yields.expect
    intro position rest
    apply Yields.expect
    intro _ rest
    apply (iterator_yields n rest).bind
    intro iter hs rest header
    apply ((expressions_yield n).level .or rest).bind
    intro cond cs rest condition
    apply Yields.expect
    intro _ rest
    apply (ih.block rest).bind
    intro body bs rest block
    apply Yields.expect
    intro _ rest
    apply ((expressions_yield n).callee rest).bind
    intro onIter fs rest callee
    apply Yields.expect
    intro _ _
    exact .pure (by simpa using .forLoop header condition block callee)
  next => exact giveBack_yields n tokens
  next => exact assignOrRun_yields n tokens

theorem otherwise_succ_yields (tokens : List Token) :
    Yields (Parser.otherwise (n + 1)) tokens fun fs o => StmtText fs (.otherwise o.bare) := by
  apply Yields.peek
  split
  next =>
    apply Yields.expect
    intro position rest
    apply conditional_yields ih rest
    intro cs bs os cond body further condition block branches
    exact .elif condition block branches
  next =>
    apply Yields.expect
    intro position rest
    apply (ih.block rest).bind
    intro body bs _ block
    exact .pure (by simpa using .otherwise block)
  next => exact .pure .nothing

theorem block_succ_yields (tokens : List Token) :
    Yields (Parser.block (n + 1)) tokens fun fs body =>
      StmtText fs (.block (Stmt.bareAll body)) := by
  apply Yields.expect
  intro _ rest
  apply (ih.statements rest).bind
  rintro body _ rest ⟨parts, statements, rfl, seen⟩
  apply Yields.expect
  intro _ _
  exact .pure (by simpa [seen] using .block statements)

theorem statements_succ_yields (tokens : List Token) :
    Yields (Parser.statements (n + 1)) tokens fun fs body =>
      ∃ parts : List (List Form × Stmt), (∀ part ∈ parts, StmtText part.1 (.statement part.2)) ∧
        fs = (parts.map (·.1)).flatten ∧ body.map Stmt.bare = parts.map (·.2) := by
  apply Yields.peek
  split
  next => exact .pure ⟨[], by simp, rfl, rfl⟩
  next => exact .pure ⟨[], by simp, rfl, rfl⟩
  next =>
    apply (ih.statement tokens).bind
    intro s fs rest statement
    apply (ih.statements rest).bind
    rintro body _ _ ⟨parts, statements, rfl, seen⟩
    refine .pure ⟨(fs, s.bare) :: parts, ?_, by simp, by simp [seen]⟩
    simpa using ⟨statement, by simpa using statements⟩

end

theorem statements_yield (n : Nat) : StatementsYield n := by
  induction n with
  | zero =>
    exact ⟨fun _ => .exhausted, fun _ => .exhausted, fun _ => .exhausted, fun _ => .exhausted⟩
  | succ n ih =>
    exact ⟨statement_succ_yields ih, otherwise_succ_yields ih, block_succ_yields ih,
      statements_succ_yields ih⟩

/-! ## Completeness -/

theorem expression_reads {fs : List Form} {e : Expr} (text : ExprText (.level .or) fs e) {n : Nat}
    (enough : depth * (fs.length + 1) ≤ n + 1) {rest : List Form} (ends : (ahead rest).grip = 0) :
    Reads (expression n) fs rest (·.bare = e) := by
  simp only [depth] at enough
  apply (accepts_and_begins text).1
  · simp only [depth, Tier.descent, Level.rank]
    omega
  · simp [ends, Tier.rank, Level.rank]

/-- A condition in parentheses is taken, and what follows on it comes next. -/
theorem condition_reads {α : Type} {k : Expr → Parser α} {P : α → Prop} {cs fs rest : List Form}
    {cond : Expr} (text : ExprText (.level .or) cs cond) {n : Nat}
    (enough : depth * (cs.length + 1) ≤ n + 1)
    (further : ∀ e : Expr, e.bare = cond → Reads (k e) fs rest P) :
    Reads (condition n >>= k) (.symbol .leftParen :: (cs ++ .symbol .rightParen :: fs)) rest P := by
  rw [condition, bind_assoc]
  apply Reads.expect
  intro _
  rw [bind_assoc]
  apply Reads.bind (expression_reads text enough rfl)
  intro e seen
  rw [bind_assoc]
  apply Reads.expect
  intro _
  exact further e seen

theorem assignmentTail_reads {gs rest : List Form} {t? : Option Ty} {x : String}
    (text : TargetText gs t? x) {n : Nat} (enough : depth * gs.length ≤ n) (value : Expr)
    (position : Position) :
    Reads (assignmentTail n value position) gs rest fun a =>
      a.bare = ⟨value.bare, t?, x, .start⟩ := by
  cases text with
  | existing x =>
    apply Reads.expect
    intro _
    apply Reads.peek
    dsimp only
    rw [if_neg (by simp [startsType]), pure_bind]
    apply Reads.identifier
    intro _
    apply Reads.expect
    intro _
    exact .pure rfl
  | @declared fs t text x =>
    apply Reads.expect
    intro _
    apply Reads.peek
    dsimp only
    rw [List.append_assoc, if_pos (text.opens _), map_eq_pure_bind, bind_assoc]
    apply Reads.bind (type_reads text (by simp [depth] at enough ⊢; omega) _)
    rintro _ rfl
    rw [pure_bind]
    apply Reads.identifier
    intro _
    apply Reads.expect
    intro _
    exact .pure rfl

section AssignmentOr

variable {α : Type} {n : Nat} {answer : Assignment → α} {k : Position → Expr → Parser α}
variable {fs rest : List Form} {P : α → Prop}

/-- An assignment is taken, whatever else could stand there. -/
theorem assignmentOr_reads_assign {a : Assignment} (text : AssignText fs a)
    (enough : depth * fs.length ≤ n + 1)
    (answers : ∀ a' : Assignment, a'.bare = a → P (answer a')) :
    Reads (do
      let position ← peekPosition
      let e ← expression n
      if (← peek) = .symbol .assign then return answer (← assignmentTail n e position)
      else k position e) fs rest P := by
  cases text with
  | @assign fs gs e t? x value target =>
    have length := target.length_pos
    have valueLength := List.length_pos_of_ne_nil value.ne_nil
    simp only [depth, List.length_append] at enough
    have ends : (ahead (gs ++ rest)).grip = 0 := by
      rw [target.ahead_eq]
      rfl
    apply Reads.peekPosition
    intro position
    apply Reads.bind (expression_reads value (by simp only [depth]; omega) ends)
    intro e' seen
    apply Reads.peek
    rw [if_pos (target.ahead_eq rest)]
    apply (assignmentTail_reads target (by simp only [depth]; omega) e' position).bind_pure
    intro a' same
    exact answers a' (by rw [same, seen])

/-- An expression with a semicolon behind it is no assignment. -/
theorem assignmentOr_reads_other {e : Expr} (text : ExprText (.level .or) fs e)
    (enough : depth * (fs.length + 1) ≤ n + 1)
    (further : ∀ position (e' : Expr), e'.bare = e →
      Reads (k position e') [.symbol .semicolon] rest P) :
    Reads (do
      let position ← peekPosition
      let e ← expression n
      if (← peek) = .symbol .assign then return answer (← assignmentTail n e position)
      else k position e) (fs ++ [.symbol .semicolon]) rest P := by
  apply Reads.peekPosition
  intro position
  apply Reads.bind (expression_reads text enough rfl)
  intro e' seen
  apply Reads.peek
  rw [if_neg (by simp)]
  exact further position e' seen

end AssignmentOr

theorem iterator_reads {fs rest : List Form} {iter : Iterator} (text : IteratorText fs iter)
    {n : Nat} (enough : depth * fs.length ≤ n + 1) :
    Reads (iterator n) fs rest (·.bare = iter) := by
  cases text with
  | assign text =>
    apply assignmentOr_reads_assign text enough
    intro a same
    rw [Iterator.bare, same]
  | @existing fs x enclosed =>
    apply assignmentOr_reads_other enclosed.text (by simpa using enough)
    intro position e' seen
    obtain ⟨position', rfl⟩ : ∃ p, e' = .name x p := by
      cases e' <;> simp_all [Expr.bare]
    apply Reads.next
    intro t closed
    simp only [closed, if_true]
    exact .pure rfl

theorem assignOrRun_assign {fs rest : List Form} {a : Assignment} (text : AssignText fs a)
    {n : Nat} (enough : depth * fs.length ≤ n + 1) :
    Reads (assignOrRun n) fs rest (·.bare = .assign a) := by
  apply assignmentOr_reads_assign text enough
  intro a' same
  rw [Stmt.bare, same]

theorem assignOrRun_run {fs rest : List Form} {e : Expr} (text : ExprText (.level .or) fs e)
    {n : Nat} (enough : depth * (fs.length + 1) ≤ n + 1) :
    Reads (assignOrRun n) (fs ++ [.symbol .semicolon]) rest (·.bare = .run e .start) := by
  apply assignmentOr_reads_other text enough
  intro position e' seen
  apply Reads.next
  intro t closed
  rw [if_pos closed]
  exact .pure (by rw [Stmt.bare, seen])

theorem giveBack_reads {fs rest : List Form} {e : Expr} (text : ExprText (.level .or) fs e)
    {n : Nat} (enough : depth * (fs.length + 1) ≤ n + 1) :
    Reads (giveBack n) (.keyword .giveBack :: (fs ++ [.symbol .semicolon])) rest
      (·.bare = .giveBack e .start) := by
  apply Reads.expect
  intro position
  apply Reads.bind (expression_reads text enough rfl)
  intro e' seen
  apply Reads.expect
  intro _
  exact .pure (by rw [Stmt.bare, seen])

/-- What the parser of a phrase does with forms that derive it. -/
def AcceptsPhrase (fs : List Form) : Phrase → Prop
  | .statement s => ∀ n rest, depth * fs.length ≤ n → (ahead rest).endsBranches →
    Reads (statement n) fs rest (·.bare = s)
  | .otherwise o => ∀ n rest, depth * fs.length < n → (ahead rest).endsBranches →
    Reads (otherwise n) fs rest (·.bare = o)
  | .block body => ∀ n rest, depth * fs.length ≤ n →
    Reads (block n) fs rest (Stmt.bareAll · = body)

/-- A statement without a keyword of its own. -/
theorem statement_reads_of_lead {fs rest : List Form} {P : Stmt → Prop} {n : Nat}
    (leads : 1 ≤ (ahead (fs ++ rest)).lead) (reads : Reads (assignOrRun n) fs rest P) :
    Reads (statement (n + 1)) fs rest P := by
  apply Reads.peek
  split <;> rename_i front
  case h_5 => exact reads
  all_goals simp [front, Form.lead] at leads

section Phrases

variable {cs bs os : List Form} {cond : Expr} {body : Block} {further : Otherwise}

/-- A condition, a block and the branches behind it are taken. -/
theorem conditional_reads {α : Type} {answer : Expr → Block → Otherwise → α} {P : α → Prop}
    {n : Nat} {rest : List Form} (condition : ExprText (.level .or) cs cond)
    (block : AcceptsPhrase bs (.block body)) (branches : AcceptsPhrase os (.otherwise further))
    (enough : depth * (cs.length + bs.length + os.length + 1) ≤ n)
    (ends : (ahead rest).endsBranches)
    (answers : ∀ cond' body' further', Expr.bare cond' = cond → Stmt.bareAll body' = body →
      Otherwise.bare further' = further → P (answer cond' body' further')) :
    Reads (do
      let cond ← Parser.condition n
      let body ← Parser.block n
      return answer cond body (← otherwise n))
      (.symbol .leftParen :: (cs ++ .symbol .rightParen :: (bs ++ os))) rest P := by
  simp only [depth] at enough
  apply condition_reads condition (by simp only [depth]; omega)
  intro cond' seen
  apply Reads.bind (block n _ (by simp only [depth]; omega))
  intro body' seen'
  apply (branches n rest (by simp only [depth]; omega) ends).bind_pure
  intro further' seen''
  exact answers cond' body' further' seen seen' seen''

theorem accepts_branch (condition : ExprText (.level .or) cs cond)
    (block : AcceptsPhrase bs (.block body)) (branches : AcceptsPhrase os (.otherwise further)) :
    AcceptsPhrase
      (.keyword .ifBranch :: .symbol .leftParen :: (cs ++ .symbol .rightParen :: (bs ++ os)))
      (.statement (.branch cond body further .start)) := by
  intro n rest enough ends
  simp only [depth, List.length_cons, List.length_append] at enough
  obtain ⟨n, rfl⟩ : ∃ m, n = m + 1 := ⟨n - 1, by omega⟩
  apply Reads.peek
  apply Reads.expect
  intro position
  apply conditional_reads condition block branches (by simp only [depth]; omega) ends
  intro cond' body' further' seen seen' seen''
  rw [Stmt.bare, seen, seen', seen'']

theorem accepts_whileLoop (condition : ExprText (.level .or) cs cond)
    (block : AcceptsPhrase bs (.block body)) :
    AcceptsPhrase
      (.keyword .whileLoop :: .symbol .leftParen :: (cs ++ .symbol .rightParen :: bs))
      (.statement (.whileLoop cond body .start)) := by
  intro n rest enough ends
  simp only [depth, List.length_cons, List.length_append] at enough
  obtain ⟨n, rfl⟩ : ∃ m, n = m + 1 := ⟨n - 1, by omega⟩
  apply Reads.peek
  apply Reads.expect
  intro position
  apply condition_reads condition (by simp only [depth]; omega)
  intro cond' seen
  apply (block n rest (by simp only [depth]; omega)).bind_pure
  intro body' seen'
  rw [Stmt.bare, seen, seen']

theorem accepts_forLoop {hs fs : List Form} {iter : Iterator} {onIter : Expr}
    (header : IteratorText hs iter) (condition : ExprText (.level .or) cs cond)
    (block : AcceptsPhrase bs (.block body)) (callee : ExprText .callee fs onIter) :
    AcceptsPhrase
      (.keyword .forLoop :: .symbol .leftParen :: (hs ++ (cs ++ .symbol .rightParen ::
        (bs ++ .symbol .call :: (fs ++ [.symbol .semicolon])))))
      (.statement (.forLoop iter cond body onIter .start)) := by
  intro n rest enough ends
  simp only [depth, List.length_cons, List.length_append] at enough
  obtain ⟨n, rfl⟩ : ∃ m, n = m + 1 := ⟨n - 1, by omega⟩
  apply Reads.peek
  apply Reads.expect
  intro position
  apply Reads.expect
  intro _
  apply Reads.bind (iterator_reads header (by simp only [depth]; omega))
  intro iter' sameIter
  apply Reads.bind (expression_reads condition (by simp only [depth]; omega) rfl)
  intro cond' sameCond
  apply Reads.expect
  intro _
  apply Reads.bind (block n _ (by simp only [depth]; omega))
  intro body' sameBody
  apply Reads.expect
  intro _
  have accepts := (accepts_and_begins callee).1 n (.symbol .semicolon :: rest)
  apply Reads.bind (accepts (by simp only [depth, Tier.descent]; omega) (Nat.succ_pos 5))
  intro onIter' sameCallee
  apply Reads.expect
  intro _
  exact .pure (by rw [Stmt.bare, sameIter, sameCond, sameBody, sameCallee])

theorem accepts_nothing : AcceptsPhrase [] (.otherwise .nothing) := by
  intro n rest enough ends
  obtain ⟨n, rfl⟩ : ∃ m, n = m + 1 := ⟨n - 1, by omega⟩
  apply Reads.peek
  split
  -- Branches that follow would be taken here, so none may follow.
  next front => exact absurd front ends.1
  next front => exact absurd front ends.2
  next => exact .pure rfl

theorem accepts_elif (condition : ExprText (.level .or) cs cond)
    (block : AcceptsPhrase bs (.block body)) (branches : AcceptsPhrase os (.otherwise further)) :
    AcceptsPhrase
      (.keyword .elifBranch :: .symbol .leftParen :: (cs ++ .symbol .rightParen :: (bs ++ os)))
      (.otherwise (.elif cond body further .start)) := by
  intro n rest enough ends
  simp only [depth, List.length_cons, List.length_append] at enough
  obtain ⟨n, rfl⟩ : ∃ m, n = m + 1 := ⟨n - 1, by omega⟩
  apply Reads.peek
  apply Reads.expect
  intro position
  apply conditional_reads condition block branches (by simp only [depth]; omega) ends
  intro cond' body' further' seen seen' seen''
  rw [Otherwise.bare, seen, seen', seen'']

theorem accepts_otherwise (block : AcceptsPhrase bs (.block body)) :
    AcceptsPhrase (.keyword .elseBranch :: bs) (.otherwise (.block body .start)) := by
  intro n rest enough ends
  simp only [depth, List.length_cons] at enough
  obtain ⟨n, rfl⟩ : ∃ m, n = m + 1 := ⟨n - 1, by omega⟩
  apply Reads.peek
  apply Reads.expect
  intro position
  apply (block n rest (by simp only [depth]; omega)).bind_pure
  intro body' seen
  rw [Otherwise.bare, seen]

end Phrases

section Blocks

variable {parts : List (List Form × Stmt)} {n : Nat} {rest : List Form}

/-- Whatever follows in a block, it does not go on with branches. -/
theorem endsBranches_statements (texts : ∀ part ∈ parts, StmtText part.1 (.statement part.2))
    (closing : ahead rest = .symbol .rightBrace) :
    (ahead ((parts.map (·.1)).flatten ++ rest)).endsBranches := by
  cases parts with
  | nil => simp [closing, Form.endsBranches]
  | cons part parts =>
    have opens := (texts part (by simp)).opens ((parts.map (·.1)).flatten ++ rest)
    rw [List.map_cons, List.flatten_cons, List.append_assoc]
    exact Form.endsBranches_of_opensStatement opens

theorem statements_read (texts : ∀ part ∈ parts, StmtText part.1 (.statement part.2))
    (accepts : ∀ part ∈ parts, AcceptsPhrase part.1 (.statement part.2))
    (enough : depth * (parts.map (·.1)).flatten.length < n)
    (closing : ahead rest = .symbol .rightBrace) :
    Reads (statements n) (parts.map (·.1)).flatten rest (·.map Stmt.bare = parts.map (·.2)) := by
  induction parts generalizing n with
  | nil =>
    obtain ⟨n, rfl⟩ : ∃ m, n = m + 1 := ⟨n - 1, by omega⟩
    apply Reads.peek
    simp only [List.map_nil, List.flatten_nil, List.nil_append, closing]
    exact .pure rfl
  | cons part parts ih =>
    obtain ⟨text, texts⟩ := List.forall_mem_cons.1 texts
    obtain ⟨first, accepts⟩ := List.forall_mem_cons.1 accepts
    have opens := text.opens ((parts.map (·.1)).flatten ++ rest)
    have length := text.length_pos
    simp only [depth, List.map_cons, List.flatten_cons, List.length_append] at enough
    obtain ⟨n, rfl⟩ : ∃ m, n = m + 1 := ⟨n - 1, by omega⟩
    apply Reads.peek
    simp only [List.map_cons, List.flatten_cons, List.append_assoc]
    split
    next front => exact absurd opens (by rw [front]; decide)
    next front => exact absurd opens (by rw [front]; decide)
    next =>
      -- The next statement, or the brace, ends this one: neither of them begins with a branch.
      have ends := endsBranches_statements texts closing
      apply Reads.bind (first n _ (by simp only [depth]; omega) ends)
      intro s seen
      apply (ih texts accepts (by simp only [depth]; omega)).bind_pure
      intro body seen'
      rw [List.map_cons, seen, seen']

theorem accepts_block (texts : ∀ part ∈ parts, StmtText part.1 (.statement part.2))
    (accepts : ∀ part ∈ parts, AcceptsPhrase part.1 (.statement part.2)) :
    AcceptsPhrase (.symbol .leftBrace :: ((parts.map (·.1)).flatten ++ [.symbol .rightBrace]))
      (.block (parts.map (·.2))) := by
  intro n rest enough
  simp only [depth, List.length_cons, List.length_append] at enough
  obtain ⟨n, rfl⟩ : ∃ m, n = m + 1 := ⟨n - 1, by omega⟩
  apply Reads.expect
  intro _
  apply Reads.bind (statements_read texts accepts (by simp only [depth]; omega) rfl)
  intro body seen
  apply Reads.expect
  intro _
  exact .pure (by simpa using seen)

end Blocks

/-- The parser takes all that derives a statement, branches or a block. -/
theorem phrase_accepts {fs : List Form} {phrase : Phrase} (text : StmtText fs phrase) :
    AcceptsPhrase fs phrase := by
  induction text with
  | @assign fs a text =>
    intro n rest enough ends
    have leads := text.lead rest
    have length := (StmtText.assign text).length_pos
    simp only [depth] at enough
    obtain ⟨n, rfl⟩ : ∃ m, n = m + 1 := ⟨n - 1, by omega⟩
    exact statement_reads_of_lead leads (assignOrRun_assign text (by simp only [depth]; omega))
  | @run fs e text =>
    intro n rest enough ends
    have leads : 1 ≤ _ := text.lead (.symbol .semicolon :: rest)
    simp only [depth, List.length_append, List.length_singleton] at enough
    obtain ⟨n, rfl⟩ : ∃ m, n = m + 1 := ⟨n - 1, by omega⟩
    apply statement_reads_of_lead (by simpa using leads)
    exact assignOrRun_run text (by simp only [depth]; omega)
  | giveBack text =>
    intro n rest enough ends
    simp only [depth, List.length_cons, List.length_append] at enough
    obtain ⟨n, rfl⟩ : ∃ m, n = m + 1 := ⟨n - 1, by omega⟩
    apply Reads.peek
    exact giveBack_reads text (by simp only [depth]; omega)
  | branch condition block branches ihBlock ihBranches =>
    exact accepts_branch condition ihBlock ihBranches
  | whileLoop condition block ihBlock => exact accepts_whileLoop condition ihBlock
  | forLoop header condition block callee ihBlock =>
    exact accepts_forLoop header condition ihBlock callee
  | nothing => exact accepts_nothing
  | elif condition block branches ihBlock ihBranches =>
    exact accepts_elif condition ihBlock ihBranches
  | otherwise block ihBlock => exact accepts_otherwise ihBlock
  | block statements ih => exact accepts_block statements ih

end Parser

end Rightflow
